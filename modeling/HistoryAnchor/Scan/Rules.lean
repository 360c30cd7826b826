import HistoryAnchor.Scan.Steps

/-! # Rules for a scan

The rules follow the program: the ancestor search and the rewind, the outputs of
a block, the blocks of a scan. An invariant of a scan is given by what holds
before a height and what holds inside a block after some of its accepted outputs.
-/

namespace HistoryAnchor

open Python Effects Prog Discovery Tables

variable [Ed25519] {α β : Type}

def Answers.Within (rpcAnswers : Answers) (c : Chain) : Prop :=
  ∀ s ⦃β : Type⦄ (call : RpcCall β) x, rpcAnswers s call x → c.flaky s call x

theorem Chain.truthful_within (c : Chain) : c.truthful.Within c := fun _ _ _ _ h => Or.inl h

theorem Chain.flaky_within (c : Chain) : c.flaky.Within c := fun _ _ _ _ h => h

/-- `BitcoinRPC.network` of a node on the chain. -/
def Chain.networkName (c : Chain) : PyStr := if c.network = "main" then "mainnet" else c.network

section Entry

variable {rpcAnswers : Answers} {G : Store → Prop} {s : Store}

theorem blockHash_alone {h : ℤ} {Q : Py PyStr → Store → Prop} (hG : G s)
    (negative : h < 0 → ∀ e, Q (.error e) s)
    (answered : 0 ≤ h → ∀ x, rpcAnswers s (.getblockhash h) x → Q x s) :
    (BitcoinRPC.blockHash h).Alone (environment rpcAnswers) G Q s := by
  unfold BitcoinRPC.blockHash
  split_ifs with hneg
  · exact negative hneg _
  · simp only [rpc_ensures, forall_eq']
    exact fun x hx => ⟨hG, answered (not_lt.mp hneg) x hx⟩

/-- A height the ancestor search may return: a stored block that is active, or none at all. -/
def Store.Ancestor (rpcAnswers : Answers) (s : Store) (a : ℤ) : Prop :=
  a = -1 ∨ 0 ≤ a ∧ ∃ row ∈ s.bitcoinBlocks, row.height = a ∧
    rpcAnswers s (.getblockhash a) (.ok row.blockHash)

theorem ancestorBelow_alone {n : ℕ} {Q : Py ℤ → Store → Prop} (hG : G s)
    (found : ∀ a : ℤ, a < n → s.Ancestor rpcAnswers a → Q (.ok a) s) :
    (ancestorBelow n).Alone (environment rpcAnswers) G Q s := by
  induction n with
  | zero => exact found (-1 : ℤ) (by simp) (Or.inl rfl)
  | succ n ih =>
    have hbelow : (ancestorBelow n).Alone (environment rpcAnswers) G Q s :=
      ih fun a ha => found a (by push_cast; omega)
    simp only [ancestorBelow, bind_eq, ensures_bind, storage_ensures, forall_eq', Store.run,
      thenOk_ok]
    refine ⟨hG, ?_⟩
    cases hfind : s.bitcoinBlocks.find? n with
    | none => exact hbelow
    | some row =>
      simp only [ensures_bind, ensures_outcome]
      apply blockHash_alone hG
      · intro hneg
        exact absurd hneg (by omega)
      · rintro - (e | x) hx
        · exact hbelow
        · simp only [thenOk_ok]
          split_ifs with he
          · obtain ⟨hm, hh⟩ := Table.find?_eq_some.mp hfind
            exact found n (by push_cast; omega)
              (Or.inr ⟨by omega, row, hm, hh, he ▸ hx⟩)
          · exact hbelow

theorem rewindTo_alone {start height : ℤ} {Q : Py (Option ℤ × ℤ) → Store → Prop} (hG : G s)
    (rewound : ∀ a, a < max 0 (height + 1) → s.Ancestor rpcAnswers a →
      G (s.rewindBitcoinScan a) ∧ Q (.ok (some a, max start (a + 1))) (s.rewindBitcoinScan a)) :
    (rewindTo start height).Alone (environment rpcAnswers) G Q s := by
  simp only [rewindTo, findCommonAncestor, bind_eq, ensures_bind]
  apply ancestorBelow_alone hG
  intro a ha hanc
  simp only [thenOk_ok, ensures_bind, storage_ensures, forall_eq', Store.run, pure_eq, ensures_ret]
  exact rewound a (by omega) hanc

/-- Bitcoin Core may answer so that a scan finds the stored tip replaced. -/
def Store.Replaced (rpcAnswers : Answers) (s : Store) (tip : ℤ) (row : BlockRow) : Prop :=
  0 ≤ row.height → row.height ≤ tip →
    ∃ x, rpcAnswers s (.getblockhash row.height) x ∧ x ≠ .ok row.blockHash

theorem entry_alone {start tip : ℤ} {Q : Py (Option ℤ × ℤ) → Store → Prop} (hG : G s)
    (fresh : s.latestScannedBlock = none → Q (.ok (none, max 0 start)) s)
    (current : ∀ row, s.latestScannedBlock = some row → 0 ≤ row.height → row.height ≤ tip →
      rpcAnswers s (.getblockhash row.height) (.ok row.blockHash) →
        Q (.ok (none, row.height + 1)) s)
    (rewound : ∀ row, s.latestScannedBlock = some row → s.Replaced rpcAnswers tip row →
      ∀ a, a < max 0 (min tip row.height + 1) → s.Ancestor rpcAnswers a →
        G (s.rewindBitcoinScan a) ∧ Q (.ok (some a, max start (a + 1))) (s.rewindBitcoinScan a)) :
    (entry start tip).Alone (environment rpcAnswers) G Q s := by
  simp only [entry, bind_eq, ensures_bind, storage_ensures, forall_eq', Store.run, thenOk_ok]
  refine ⟨hG, ?_⟩
  cases hlatest : s.latestScannedBlock with
  | none => exact fresh hlatest
  | some row =>
    dsimp only
    have hrewind : s.Replaced rpcAnswers tip row → ∀ height, height = min tip row.height →
        (rewindTo start height).Alone (environment rpcAnswers) G Q s := by
      rintro hr height rfl
      exact rewindTo_alone hG fun a ha hanc => rewound row hlatest hr a ha hanc
    split_ifs with htip
    · have hmin : row.height = min tip row.height := (min_eq_right htip).symm
      simp only [ensures_bind, ensures_outcome]
      apply blockHash_alone hG
      · intro hneg e
        exact hrewind (fun h₀ => absurd h₀ (not_le.mpr hneg)) _ hmin
      · rintro h₀ (e | x) hx
        · exact hrewind (fun _ _ => ⟨_, hx, by simp⟩) _ hmin
        · simp only [thenOk_ok]
          split_ifs with he
          · exact current row hlatest h₀ htip (he ▸ hx)
          · exact hrewind (fun _ _ => ⟨_, hx, by simpa using he⟩) _ hmin
    · exact hrewind (fun _ h => absurd h htip) _ (min_eq_left (not_le.mp htip).le).symm

end Entry

section Block

def recordOutput (b : BlockContext) (found : ℕ) (o : Output) : Node ℕ := do
  recordCommitment b o.point o.payloadHex o.payload
  return found + 1

theorem scanTransaction_eq (b : BlockContext) (found : ℕ) (t : Tx) :
    scanTransaction b found t = t.accepted.foldlM (recordOutput b) found := by
  unfold scanTransaction Tx.accepted
  cases t.txid with
  | none => rfl
  | some txid =>
    dsimp only
    generalize t.vout.zipIdx = outs
    induction outs generalizing found with
    | nil => rfl
    | cons x outs ih =>
      obtain ⟨out, i⟩ := x
      rw [List.foldlM_cons, List.filterMap_cons]
      cases ha : acceptedPayload out.scriptHex with
      | none => simp only [scanOutput, ha, Option.map_none, pure_bind, ih]
      | some p =>
        obtain ⟨payloadHex, payload⟩ := p
        simp only [scanOutput, ha, Option.map_some, List.foldlM_cons, recordOutput, ih]

theorem foldlM_scanTransaction (ctx : BlockContext) (b : Block) (found : ℕ) :
    b.tx.foldlM (scanTransaction ctx) found = b.accepted.foldlM (recordOutput ctx) found := by
  unfold Block.accepted
  induction b.tx generalizing found with
  | nil => rfl
  | cons t txs ih =>
    rw [List.foldlM_cons, List.flatMap_cons, List.foldlM_append, scanTransaction_eq]
    exact congrArg _ (funext fun n => ih n)

theorem recordOutputs_alone {rpcAnswers : Answers} {G : Store → Prop} {s : Store}
    {ctx : BlockContext} {outs : List Output} {found : ℕ} {Q : Py ℕ → Store → Prop}
    (J : List Output → Store → Prop)
    (step : ∀ done o rest s, outs = done ++ o :: rest → J done s →
      (recordCommitment ctx o.point o.payloadHex o.payload).Alone (environment rpcAnswers) G
        (thenOk (fun _ => J (done ++ [o])) fun e => Q (.error e)) s)
    (finish : ∀ n s, J outs s → Q (.ok n) s) (hs : J [] s) :
    (outs.foldlM (recordOutput ctx) found).Alone (environment rpcAnswers) G Q s := by
  apply ensures_foldlM (fun done _ => J done) _ finish hs
  intro done o rest n s ho hJ
  simp only [recordOutput, bind_eq, ensures_bind]
  apply (step done o rest s ho hJ).post
  rintro (e | _) s' h
  · exact h
  · exact h

/-- Bitcoin Core may answer that the block at a height has the hash and the contents. -/
def Store.Fetches (s : Store) (rpcAnswers : Answers) (h : ℤ) (x : PyStr) (b : Block) : Prop :=
  0 ≤ h ∧ rpcAnswers s (.getblockhash h) (.ok x) ∧ rpcAnswers s (.getblock x) (.ok b)

theorem scanBlock_alone {rpcAnswers : Answers} {G : Store → Prop} {s : Store} {network : PyStr}
    {found : ℕ} {h : ℤ} {Q : Py ℕ → Store → Prop} (hG : G s) (failed : ∀ e, Q (.error e) s)
    (J : PyStr → Block → List Output → Store → Prop)
    (start : ∀ x b, s.Fetches rpcAnswers h x b → J x b [] s)
    (step : ∀ x b, s.Fetches rpcAnswers h x b →
      ∀ done o rest s, b.accepted = done ++ o :: rest → J x b done s →
      (recordCommitment ⟨network, h, x, b.blockTime⟩ o.point o.payloadHex o.payload).Alone
        (environment rpcAnswers) G (thenOk (fun _ => J x b (done ++ [o])) fun e => Q (.error e)) s)
    (finish : ∀ x b, s.Fetches rpcAnswers h x b → ∀ s, J x b b.accepted s →
      G s ∧ (∀ e, Q (.error e) s) ∧ G (s.putBlock ⟨h, x, b.blockTime⟩) ∧
        ∀ n, Q (.ok n) (s.putBlock ⟨h, x, b.blockTime⟩)) :
    (scanBlock network found h).Alone (environment rpcAnswers) G Q s := by
  simp only [scanBlock, bind_eq, ensures_bind]
  apply blockHash_alone hG
  · exact fun _ => failed
  rintro h₀ (e | x) hx
  · exact failed e
  simp only [thenOk_ok, BitcoinRPC.block, rpc_ensures, forall_eq', ensures_bind]
  rintro (e | b) hb
  · exact ⟨hG, failed e⟩
  refine ⟨hG, ?_⟩
  have hfetch : s.Fetches rpcAnswers h x b := ⟨h₀, hx, hb⟩
  simp only [thenOk_ok, foldlM_scanTransaction, ensures_bind]
  refine recordOutputs_alone (J x b) ?_ ?_ (start x b hfetch)
  · exact step x b hfetch
  · intro n s' hJ
    obtain ⟨hG', herr, hput, hok⟩ := finish x b hfetch s' hJ
    simp only [thenOk_ok, ensures_bind, storage_ensures, forall_eq', Store.run,
      Store.addScannedBlock]
    split_ifs
    · exact ⟨hput, hok n⟩
    · exact ⟨hG', herr _⟩

end Block

section Scan

omit [Ed25519] in
theorem mem_heights {first last h : ℤ} : h ∈ heights first last ↔ first ≤ h ∧ h ≤ last := by
  simp only [heights, List.mem_map, List.mem_range]
  constructor
  · rintro ⟨i, hi, rfl⟩
    omega
  · rintro ⟨h₁, h₂⟩
    exact ⟨(h - first).toNat, by omega, by omega⟩

omit [Ed25519] in
theorem eq_of_heights_eq {first last h : ℤ} {before after : List ℤ}
    (he : heights first last = before ++ h :: after) : h = first + before.length := by
  have hget : (heights first last)[before.length]? = some h := by
    rw [he]
    simp
  simp only [heights, List.getElem?_map, Option.map_eq_some_iff] at hget
  obtain ⟨i, hi, rfl⟩ := hget
  obtain ⟨-, rfl⟩ := List.getElem?_eq_some_iff.mp hi
  simp

variable {c : Chain} {rpcAnswers : Answers} {G : Store → Prop} {s : Store}

theorem Answers.Within.hashAt (h : rpcAnswers.Within c) {a : ℤ} {x : PyStr}
    (hx : rpcAnswers s (.getblockhash a) (.ok x)) : c.hashAt a = some x := by
  rcases h _ _ _ hx with he | ⟨e, he⟩
  · simp only [Chain.answer] at he
    cases hh : c.hashAt a with
    | none => rw [hh] at he; cases he
    | some y => rw [hh] at he; rw [Except.ok.inj he]
  · cases he

theorem Answers.Within.at? (h : rpcAnswers.Within c) {a : ℤ} {x : PyStr} {b : Block}
    (hf : s.Fetches rpcAnswers a x b) : c.at? a = some (x, b) := by
  obtain ⟨-, hx, hb⟩ := hf
  obtain ⟨⟨_, b'⟩, hat, rfl⟩ := Option.map_eq_some_iff.mp (h.hashAt hx)
  rcases h _ _ _ hb with he | ⟨e, he⟩
  · simp only [Chain.answer, Chain.block?_of_at? hat] at he
    rw [hat, Except.ok.inj he]
  · cases he

theorem Answers.Within.tip (h : rpcAnswers.Within c) {tip : ℤ}
    (hx : rpcAnswers s .getblockcount (.ok tip)) : tip = c.tip := by
  rcases h _ _ _ hx with he | ⟨e, he⟩
  · exact Except.ok.inj he
  · cases he

/-- What holds before a height after `entry` is carried through the blocks; every row is stored
under the network of the chain. -/
theorem scanBitcoin_networked {start maxBlocks : ℤ} {Q : Py ScanResult → Store → Prop} (hG : G s)
    (failed : ∀ e, Q (.error e) s) (I : ℤ → ℤ → Store → Prop)
    (ready : ∀ tip, rpcAnswers s .getblockcount (.ok tip) →
      (entry start tip).Alone (environment rpcAnswers) G
        (thenOk (fun x => I tip x.2) fun e => Q (.error e)) s)
    (block : ∀ tip network found next s, (∀ c, rpcAnswers.Within c → network = c.networkName) →
      next ≤ tip → I tip next s → (scanBlock network found next).Alone (environment rpcAnswers) G
        (thenOk (fun _ => I tip (next + 1)) fun e => Q (.error e)) s)
    (finish : ∀ tip next r s, I tip next s → Q (.ok r) s) :
    (scanBitcoin start maxBlocks).Alone (environment rpcAnswers) G Q s := by
  simp only [scanBitcoin, BitcoinRPC.network, BitcoinRPC.blockCount, bind_eq, ensures_bind,
    rpc_ensures, forall_eq', pure_eq]
  rintro (e | chain) hchain
  · exact ⟨hG, failed e⟩
  refine ⟨hG, ?_⟩
  simp only [thenOk_ok, ensures_ret, ensures_bind, rpc_ensures, forall_eq']
  have hnetwork : ∀ c, rpcAnswers.Within c →
      (if chain = ascii "main" then ascii "mainnet" else chain) = c.networkName := by
    intro c hc
    rcases hc _ _ _ hchain with he | ⟨e, he⟩
    · rw [Except.ok.inj he]
      rfl
    · cases he
  generalize (if chain = ascii "main" then ascii "mainnet" else chain) = network at hnetwork ⊢
  rintro (e | tip) htip
  · exact ⟨hG, failed e⟩
  refine ⟨hG, ?_⟩
  simp only [thenOk_ok, ensures_bind]
  apply (ready tip htip).post
  rintro (e | ⟨rewindHeight, next⟩) s' hI
  · exact hI
  simp only [thenOk_ok] at hI ⊢
  split_ifs with hnext
  · exact finish tip next _ s' hI
  · simp only [ensures_bind]
    apply ensures_foldlM fun done _ s => I tip (next + done.length) s
    · intro done h rest found s₁ he hI₁
      have hh := eq_of_heights_eq he
      have hm := mem_heights.mp (he ▸ List.mem_append_right done List.mem_cons_self)
      rw [← hh] at hI₁
      apply (block tip network found h s₁ hnetwork (hm.2.trans (min_le_left _ _)) hI₁).post
      rintro (e | n) s₂ h₂
      · exact h₂
      · rw [List.length_append, List.length_singleton, Nat.cast_add, ← add_assoc, ← hh]
        exact h₂
    · intro n s₁ hI₁
      exact finish _ _ _ s₁ hI₁
    · simpa using hI

theorem scanBitcoin_alone {start maxBlocks : ℤ} {Q : Py ScanResult → Store → Prop} (hG : G s)
    (failed : ∀ e, Q (.error e) s) (I : ℤ → ℤ → Store → Prop)
    (ready : ∀ tip, rpcAnswers s .getblockcount (.ok tip) →
      (entry start tip).Alone (environment rpcAnswers) G
        (thenOk (fun x => I tip x.2) fun e => Q (.error e)) s)
    (block : ∀ tip network found next s, next ≤ tip → I tip next s →
      (scanBlock network found next).Alone (environment rpcAnswers) G
        (thenOk (fun _ => I tip (next + 1)) fun e => Q (.error e)) s)
    (finish : ∀ tip next r s, I tip next s → Q (.ok r) s) :
    (scanBitcoin start maxBlocks).Alone (environment rpcAnswers) G Q s :=
  scanBitcoin_networked hG failed I ready
    (fun tip network found next s _ => block tip network found next s) finish

/-- What every step of a scan of the chain preserves. -/
structure Chain.Scanned (c : Chain) (I : Store → Prop) : Prop where
  rewound : ∀ s a, I s → I (s.rewindBitcoinScan a)
  scanned : ∀ s row, I s → I (s.putBlock row)
  stored : ∀ s h x b o t hf, c.at? h = some (x, b) → o ∈ b.accepted → I s →
    I (s.upsertCommitment (Output.row o ⟨c.networkName, h, x, b.blockTime⟩ t) hf)
  registered : ∀ s, ∀ r ∈ s.commitments, I s → s.Local r.batchId r.payloadHex →
    I (s.confirm r) ∧ I (s.register r)

theorem scanBitcoin_preserves {I : Store → Prop} (hI : c.Scanned I) (hrpc : rpcAnswers.Within c)
    (start maxBlocks : ℤ) :
    (scanBitcoin start maxBlocks).Preserves (environment rpcAnswers) I := by
  intro s hs
  apply scanBitcoin_networked hs (fun _ => hs) fun _ _ s => I s
  · intro tip _
    apply entry_alone hs
    · exact fun _ => hs
    · exact fun _ _ _ _ _ => hs
    · exact fun _ _ _ a _ _ => ⟨hI.rewound _ a hs, hI.rewound _ a hs⟩
  · intro tip network found next s hnetwork _ hs
    obtain rfl := hnetwork c hrpc
    apply scanBlock_alone hs (fun _ => hs) fun _ _ _ s => I s
    · exact fun _ _ _ => hs
    · intro x b hf done o rest s ho hs
      have hat := hrpc.at? hf
      have hmem : o ∈ b.accepted := ho ▸ List.mem_append_right _ List.mem_cons_self
      have hstored := fun t hfits => hI.stored s next x b o t hfits hat hmem hs
      apply recordCommitment_alone hs
      · exact fun _ => hs
      · exact hstored
      · exact fun t hfits _ => hstored t hfits
      · intro t hfits hl r hr hcore
        have hlocal : (s.upsertCommitment (o.row ⟨c.networkName, next, x, b.blockTime⟩ t)
            hfits).Local r.batchId r.payloadHex := by
          rw [show r.batchId = _ from congrArg Core.batchId hcore,
            show r.payloadHex = _ from congrArg Core.payloadHex hcore]
          exact hl
        obtain ⟨h₁, h₂⟩ := hI.registered _ r hr (hstored t hfits) hlocal
        exact ⟨h₁, h₂, h₂⟩
      · exact fun t hfits _ _ _ => hstored t hfits
    · exact fun x b _ s hs => ⟨hs, fun _ => hs, hI.scanned _ _ hs, fun _ => hI.scanned _ _ hs⟩
  · exact fun _ _ _ _ hs => hs

end Scan

end HistoryAnchor

import HistoryAnchor.Publication.Bundles

/-! # References that spoil bundles

Anchors come from the wallet, from scans and from peers. The first two have integers
that JSON represents. A peer's reference may have larger ones: its import stores them,
and no bundle of the batch can be encoded.
-/

namespace HistoryAnchor

open Python Effects Prog Tables

section References

variable [Ed25519] {s : Store} {c : Chain} {a : Anchor}

/-- A chain of a supported network, named by digests and numbered by integers of JSON. -/
structure Chain.Genuine (c : Chain) : Prop where
  network : c.networkName ∈ Batches.allowedNetworks
  hashes : ∀ b ∈ c.blocks, ∃ raw, IsDigest b.1 raw
  txids : ∀ b ∈ c.blocks, ∀ t ∈ b.2.tx, ∀ txid, t.txid = some txid → ∃ raw, IsDigest txid raw
  numbers : ∀ b ∈ c.blocks, ∀ t ∈ b.2.tx, ∀ n ∈ t.numbers, jsonNatural n
  tip : c.tip ≤ Codec.maxSafeJsonInteger

/-- The wallet names an output of a transaction, and the clock shows a time of JSON. -/
def NodeCall.Genuine : {β : Type} → NodeCall β → Py β → Prop
  | _, .outside .time, x => ∀ t, x = .ok t → jsonNatural t
  | _, .outside (.broadcastOpReturn _), x =>
    ∀ p : Point, x = .ok p → (∃ raw, IsDigest p.1 raw) ∧ jsonNatural p.2
  | _, _, _ => True

/-- Bitcoin Core answers from the chain or fails; wallet and clock are genuine, and peers answer
anything. -/
def genuine (c : Chain) : Handler NodeCall Exc Store := fun _ call s x s' =>
  environment c.flaky call s x s' ∧ call.Genuine x

def Commitment.Portable (r : Commitment) : Prop := (Service.confirmedAnchor r).Portable

/-- Every anchor is portable, and so is every one that a rescan may confirm. -/
structure Store.Portable (s : Store) : Prop where
  anchors : ∀ a ∈ s.anchors, a.Portable
  commitments : ∀ r ∈ s.commitments, r.Portable

namespace Store.Portable

variable {r : Commitment}

theorem addRecord (h : s.Portable) (r : Record) : (s.addRecord r).Portable :=
  ⟨h.anchors, h.commitments⟩

theorem addBatch (h : s.Portable) (b : Batch) : (s.addBatch b).2.Portable := by
  constructor
  · rw [anchors_addBatch]
    exact h.anchors
  · rw [commitments_addBatch]
    exact h.commitments

theorem addAnchor (h : s.Portable) (ha : a.Fits → a.Portable) : (s.addAnchor a).2.Portable := by
  by_cases hfits : a.Fits
  · constructor
    · intro a' ha'
      rcases mem_or_eq_of_mem_addAnchor ha' with hold | rfl
      · exact h.anchors a' hold
      · exact ha hfits
    · rw [(s.addAnchor_frame a).2.1]
      exact h.commitments
  · have he : s.addAnchor a = (.error overflow, s) := if_neg hfits
    rw [he]
    exact h

theorem confirm (h : s.Portable) (hr : r.Portable) : (s.confirm r).Portable := by
  constructor
  · by_cases hb : ∃ b ∈ s.batches, b.batchId = r.batchId
    · intro a ha
      rcases (mem_confirm hb).mp ha with ⟨ha, -⟩ | rfl
      · exact h.anchors a ha
      · exact hr
    · rw [Store.confirm, dif_neg hb]
      exact h.anchors
  · rw [confirm_commitments]
    exact h.commitments

theorem markCommitmentResolved (h : s.Portable) (p : Point) :
    (s.markCommitmentResolved p).Portable := by
  refine ⟨h.anchors, fun r hr => ?_⟩
  have hmem := (@Table.mem_updateWhere _ _ _ s.commitments (fun c => c.point = p)
    Commitment.resolve (fun _ => rfl) r).mp hr
  obtain ⟨r', hr', rfl⟩ := hmem
  have hp := h.commitments r' hr'
  split_ifs
  · exact hp
  · exact hp

theorem register (h : s.Portable) (hr : r.Portable) : (s.register r).Portable :=
  (h.confirm hr).markCommitmentResolved _

theorem rewindBitcoinScan (h : s.Portable) (ancestor : ℤ) :
    (s.rewindBitcoinScan ancestor).Portable := by
  constructor
  · intro a ha
    obtain ⟨a', ha', rfl⟩ := mem_anchors_rewindBitcoinScan.mp ha
    have hp := h.anchors a' ha'
    split_ifs
    · exact ⟨hp.txid, hp.vout, hp.batchId, hp.network, hp.anchoredAt, hp.blockHash, hp.blockHeight⟩
    · exact hp
  · exact fun r hr => h.commitments r (mem_rewindBitcoinScan.mp hr).1

theorem upsertCommitment (h : s.Portable) (hr : r.Portable) (hf : r.Fits) :
    (s.upsertCommitment r hf).Portable := by
  refine ⟨h.anchors, fun r' hr' => ?_⟩
  have hmem := (@Table.mem_upsert _ _ _ _ s.commitments mergeCommitment (fun _ _ => rfl) r r').mp hr'
  rcases hmem with ⟨hr', -⟩ | ⟨_, -, -, rfl⟩ | ⟨rfl, -⟩
  · exact h.commitments r' hr'
  · exact hr
  · exact hr

end Store.Portable

omit [Ed25519] in
theorem isDigest_batchId (b : Batch) : ∃ raw, IsDigest b.batchId raw := by
  obtain ⟨p, hp, hm⟩ := b.decode
  obtain ⟨raw, -, hlen, -, -, rfl⟩ := Bitcoin.decodeAnchorPayload_ok.mp hp
  have hdrop : (raw.drop 6).length = 32 := by rw [List.length_drop, hlen]
  exact ⟨raw.drop 6, by rw [← hm, length_hex, hdrop], by rw [← hm, fromHex_hex], hdrop⟩

omit [Ed25519] in
theorem text_of_getD {v : Json} {k t : PyStr} (h : v.getD k .null = .str t) : v.text k = t := by
  unfold Json.getD at h
  unfold Json.text
  cases hk : v.get k with
  | none =>
    rw [hk] at h
    cases h
  | some x =>
    rw [hk, Option.getD_some] at h
    rw [h]

omit [Ed25519] in
theorem text_mem_of_memberOf {v : Json} {k : PyStr} {xs : List PyStr}
    (h : memberOf (v.getD k .null) xs = .ok true) : v.text k ∈ xs := by
  unfold Json.getD at h
  unfold Json.text
  cases hk : v.get k with
  | none =>
    rw [hk] at h
    cases h
  | some x =>
    rw [hk, Option.getD_some] at h
    cases x with
    | str s => exact of_decide_eq_true (Except.ok.inj h)
    | _ => cases h

omit [Ed25519] in
theorem Batch.network_mem (b : Batch) : b.network ∈ Batches.allowedNetworks := by
  have h := b.valid
  obtain ⟨_, hbody, -⟩ := b.facts.fields
  simp only [Batches.validateBatch, bind_ok, exists_unit, hbody, Batches.validateHeader,
    require_ok] at h
  obtain ⟨⟨-, -, -, known, hknown, rfl, -⟩, -⟩ := h
  rw [← hbody] at hknown
  exact text_mem_of_memberOf hknown

omit [Ed25519] in
theorem Chain.Genuine.row (hc : c.Genuine) {h t : ℤ} {x : PyStr} {b : Block} {o : Output}
    (hat : c.at? h = some (x, b)) (ho : o ∈ b.accepted) :
    (Output.row o ⟨c.networkName, h, x, b.blockTime⟩ t).Portable := by
  have hb : (x, b) ∈ c.blocks := Chain.mem_of_at? hat
  obtain ⟨tx, htx, hot⟩ := Block.mem_accepted.mp ho
  obtain ⟨txid, out, i, hid, hout, -, hpoint⟩ := Tx.mem_accepted hot
  obtain ⟨htxid, hvout⟩ := Prod.mk.inj hpoint
  obtain ⟨raw, -, hlen, -, -, hpayload⟩ := Bitcoin.decodeAnchorPayload_ok.mp (Output.decode ho)
  have hdrop : (raw.drop 6).length = 32 := by rw [List.length_drop, hlen]
  obtain ⟨h₀, h₁⟩ := Chain.at?_bounds hat
  constructor
  · change ∃ raw, IsDigest o.point.1 raw
    rw [htxid]
    exact hc.txids _ hb tx htx txid hid
  · change jsonNatural o.point.2
    rw [hvout]
    exact hc.numbers _ hb tx htx _ (List.mem_map.mpr ⟨(out, i), hout, rfl⟩)
  · change ∃ raw, IsDigest o.payload.manifestHash raw
    rw [hpayload]
    exact ⟨raw.drop 6, by rw [length_hex, hdrop], fromHex_hex _, hdrop⟩
  · exact hc.network
  · refine ⟨Int.natCast_nonneg _, ?_⟩
    change (((b.time.map UInt32.toNat).getD 0 : ℕ) : ℤ) ≤ Codec.maxSafeJsonInteger
    cases b.time with
    | none => decide
    | some time =>
      have hlt := time.toNat_lt
      rw [Option.map_some, Option.getD_some]
      unfold Codec.maxSafeJsonInteger
      omega
  · rintro _ ⟨⟩
    exact hc.hashes _ hb
  · rintro _ ⟨⟩
    exact ⟨h₀, h₁.trans hc.tip⟩

theorem Chain.Genuine.scanned (hc : c.Genuine) : c.Scanned Store.Portable where
  rewound _ a h := h.rewindBitcoinScan a
  scanned _ _ h := ⟨h.anchors, h.commitments⟩
  stored _ _ _ _ _ _ hf hat ho h := h.upsertCommitment (hc.row hat ho) hf
  registered _ r hr h _ := ⟨h.confirm (h.commitments r hr), h.register (h.commitments r hr)⟩

theorem anchorBatch_portable (hs : s.Portable) (batchId : PyStr) (allowMainnet : Bool) :
    (Service.anchorBatch batchId allowMainnet).Alone (genuine c) (fun _ => True)
      (fun _ => Store.Portable) s := by
  simp only [Service.anchorBatch, BitcoinRPC.network, Service.check, storage, rpc, now, bind_eq,
    pure_eq, Alone, ensures_bind, ensures_perform]
  rintro _ rfl x s₁ ⟨hx, -⟩
  obtain ⟨rfl, rfl⟩ : x = .ok (s.batches.find? batchId) ∧ s₁ = s := Prod.mk.inj hx
  refine ⟨trivial, ?_⟩
  rw [thenOk_ok]
  cases hfind : s₁.batches.find? batchId with
  | none => exact hs
  | some batch =>
    obtain ⟨hb, rfl⟩ := Table.find?_eq_some.mp hfind
    simp only [batch.valid, ensures_bind, ensures_ofExcept, thenOk_ok, require]
    split_ifs
    · simp only [thenOk_ok, ensures_bind, ensures_perform]
      rintro _ rfl chain _ ⟨⟨-, rfl⟩, -⟩
      refine ⟨trivial, ?_⟩
      cases chain with
      | error e => exact hs
      | ok chain =>
        simp only [thenOk_ok, ensures_ret, ensures_bind, ensures_ofExcept]
        generalize (if chain = ascii "main" then ascii "mainnet" else chain) = rpcNetwork
        split_ifs with hnetwork
        · simp only [thenOk_ok, ensures_bind, ensures_perform]
          rintro _ rfl broadcast _ ⟨⟨-, rfl⟩, hbroadcast⟩
          refine ⟨trivial, ?_⟩
          cases broadcast with
          | error e => exact hs
          | ok p =>
            obtain ⟨htxid, hvout⟩ := hbroadcast p rfl
            simp only [thenOk_ok, ensures_bind, ensures_perform]
            rintro _ rfl _ _ ⟨⟨⟨t, rfl⟩, rfl⟩, hdated⟩
            refine ⟨trivial, ?_⟩
            simp only [thenOk_ok, ensures_bind, ensures_perform]
            rintro _ rfl x s' ⟨hx, -⟩
            have hs' : s'.Portable := by
              rw [show s' = _ from congrArg Prod.snd hx]
              apply hs.addAnchor
              intro _
              refine ⟨htxid, hvout, isDigest_batchId batch, hnetwork ▸ batch.network_mem,
                hdated t rfl, ?_, ?_⟩
              · rintro _ ⟨⟩
              · rintro _ ⟨⟩
            refine ⟨trivial, ?_⟩
            cases x with
            | error e => exact hs'
            | ok _ => exact hs'
        · exact hs
    · exact hs

omit [Ed25519] in
/-- The integers of the anchor are not too large for JSON. -/
structure Anchor.Representable (a : Anchor) : Prop where
  vout : (a.vout : ℤ) ≤ Codec.maxSafeJsonInteger
  anchoredAt : a.anchoredAt ≤ Codec.maxSafeJsonInteger
  blockHeight : ∀ n, a.blockHeight = some n → n ≤ Codec.maxSafeJsonInteger

structure Store.Takes (s : Store) (v : Json) : Prop where
  valid : Anchors.validateAnchorReference v = .ok ()
  batch : ∃ b ∈ s.batches, b.batchId = v.text "batch_id"
  accepted : s.Accepts v
  fits : (Service.localReference v (s.anchors.find? (refPoint v))).Fits

/-- A row that the import of the reference stores is representable. -/
def Store.Represents (s : Store) (v : Json) : Prop :=
  s.Takes v → (Service.localReference v (s.anchors.find? (refPoint v))).Representable

omit [Ed25519] in
theorem localReference_portable {v : Json} {existing : Option Anchor}
    (hv : Anchors.validateAnchorReference v = .ok ())
    (hrow : ∀ row, existing = some row → row.Portable)
    (hr : (Service.localReference v existing).Representable) :
    (Service.localReference v existing).Portable := by
  obtain ⟨fields, rfl⟩ : ∃ fields, v = .obj fields := by
    cases v with
    | obj fields => exact ⟨fields, rfl⟩
    | _ => exact (raise_ne_ok hv).elim
  obtain ⟨-, ⟨txid, htxid, htx⟩, -, ⟨i, hi, hid⟩, hn, -, -, hh, hk⟩ :=
    Anchors.validateAnchorReference_iff.mp hv
  set v := Json.obj fields with hvdef
  have hnat : ∀ {k : PyStr}, (0 : ℤ) ≤ v.nat k := Int.natCast_nonneg _
  have htxid' : ∃ raw, IsDigest (v.text "txid") raw := text_of_getD htxid ▸ htx
  have hid' : ∃ raw, IsDigest (v.text "batch_id") raw := text_of_getD hi ▸ hid
  have hnetwork : v.text "network" ∈ Batches.allowedNetworks := text_mem_of_memberOf hn
  have hhash : ∀ h, (Service.localReference v none).blockHash = some h → ∃ raw, IsDigest h raw := by
    intro h hget
    simp only [Service.localReference] at hget
    split at hget
    · rename_i t ht
      obtain rfl := Option.some.inj hget
      rw [Json.getD, ht, Option.getD_some] at hh
      exact Anchors.digestOrNull_str.mp hh
    · cases hget
  have hheight : ∀ n, (Service.localReference v none).blockHeight = some n → 0 ≤ n := by
    intro n hget
    simp only [Service.localReference] at hget
    split at hget
    · rename_i m hm
      obtain rfl := Option.some.inj hget
      rw [Json.getD, hm, Option.getD_some] at hk
      exact of_decide_eq_true hk
    · cases hget
  unfold Service.localReference at hr ⊢
  cases existing with
  | none =>
    exact ⟨htxid', ⟨hnat, hr.vout⟩, hid', hnetwork, ⟨hnat, hr.anchoredAt⟩, hhash,
      fun n hn => ⟨hheight n hn, hr.blockHeight n hn⟩⟩
  | some row =>
    dsimp only at hr ⊢
    split_ifs at hr ⊢
    · exact ⟨htxid', ⟨hnat, hr.vout⟩, hid', hnetwork, ⟨hnat, hr.anchoredAt⟩, hhash,
        fun n hn => ⟨hheight n hn, hr.blockHeight n hn⟩⟩
    · have hp := hrow row rfl
      exact ⟨htxid', ⟨hnat, hr.vout⟩, hid', hnetwork, hp.anchoredAt, hp.blockHash, hp.blockHeight⟩

theorem importAnchorReference_portable {rpcAnswers : Answers} {I : Store → Prop} {v : Json}
    (hs : s.Portable) (hv : s.Represents v) (hI : I s) (hanchor : ∀ a, I (s.addAnchor a).2) :
    (Service.importAnchorReference v).Alone (environment rpcAnswers)
      (fun t => t.Portable ∧ I t) (fun _ t => t.Portable ∧ I t) s := by
  apply Service.importAnchorReference_keeps ⟨hs, hI⟩
  rintro hvalid ⟨b, hb, hid, hnetwork⟩ hpoint
  refine ⟨hs.addAnchor fun hfits => ?_, hanchor _⟩
  apply localReference_portable hvalid
  · exact fun row hrow => hs.anchors row (Table.find?_eq_some.mp hrow).1
  · apply hv
    refine ⟨hvalid, ⟨b, hb, hid⟩, ⟨fun b' hb' hid' => ?_, hpoint⟩, hfits⟩
    rw [hnetwork, Table.eq_of_key hb hb' (hid.trans hid'.symm)]

/-- A record, a batch or a reference has been added. -/
inductive Store.Receives (s : Store) : Store → Prop
  | record (r : Record) : s.Receives (s.addRecord r)
  | batch (b : Batch) : s.Receives (s.addBatch b).2
  | reference (a : Anchor) : s.Receives (s.addAnchor a).2

/-- The references that the operation imports are representable where it comes to them; a snapshot
comes to its references after it has added to the store. -/
def Store.Admits (s : Store) : Operation → Prop
  | .importAnchorReference v => s.Represents v
  | .importSnapshot snapshot => ∀ v ∈ snapshot.items "anchors", ∀ t : Store,
      Relation.ReflTransGen Store.Receives s t → t.Represents v
  | _ => True

/-- Operations one after another, with any outcomes, in genuine environments; every operation
satisfies `P` where it starts. -/
inductive GenuineRuns (P : Store → Operation → Prop) : Store → Prop
  | empty : GenuineRuns P .empty
  | step {s s' : Store} {r : Py Unit} {c : Chain} (op : Operation) :
      GenuineRuns P s → c.Genuine → P s op → op.run.Exec (genuine c) s r s' → GenuineRuns P s'

variable {P : Store → Operation → Prop}

theorem GenuineRuns.nodeRuns (hs : GenuineRuns P s) : NodeRuns s := by
  induction hs with
  | empty => exact .empty
  | step op _ _ _ hx ih => exact .step _ op ih (hx.mono fun _ _ _ _ _ h => h.1)

theorem Operation.portable {op : Operation} {r : Py Unit} {s' : Store} (hc : c.Genuine)
    (hop : s.Admits op) (hs : s.Portable) (hx : op.run.Exec (genuine c) s r s') : s'.Portable := by
  have hunit : ∀ {α : Type} {p : Node α}, p.Alone (genuine c) (fun _ => True)
      (fun _ => Store.Portable) s → (p.bind fun _ => .ret ()).Exec (genuine c) s r s' →
      s'.Portable := by
    intro α p hp hx
    rcases exec_bind.mp hx with ⟨a, s₁, hp', hret⟩ | ⟨e, hp', -⟩
    · rw [hret.2]
      exact Ensures.exec (fun _ => rfl) hp hp'
    · exact Ensures.exec (fun _ => rfl) hp hp'
  have hplain : ∀ {α : Type} {p : Node α}, p.Alone (environment c.flaky) Store.Portable
      (fun _ => Store.Portable) s → (p.bind fun _ => .ret ()).Exec (genuine c) s r s' →
      s'.Portable := fun hp =>
    hunit ((hp.restrict fun _ _ _ _ _ h => h.1).mono (fun _ _ => id) (fun _ _ _ => trivial)
      fun _ _ => id)
  have hrecord : ∀ (s : Store) r, s.Portable → (s.addRecord r).Portable := fun _ r h => h.addRecord r
  have hbatch : ∀ (s : Store) b, s.Portable → (s.addBatch b).2.Portable := fun _ b h => h.addBatch b
  cases op with
  | submitRecord => exact hplain (Service.submitRecord_preserves hrecord _ _ _ s hs) hx
  | importBatch => exact hplain (Service.importBatch_preserves hbatch _ s hs) hx
  | importPackage => exact hplain (Service.importPackage_preserves hrecord hbatch _ s hs) hx
  | importSnapshot snapshot =>
    have halone : (Service.importSnapshot snapshot).Alone (environment c.flaky)
        (fun t => t.Portable ∧ Relation.ReflTransGen Store.Receives s t)
        (fun _ t => t.Portable ∧ Relation.ReflTransGen Store.Receives s t) s :=
      Service.importSnapshot_preserves
        (fun t r h => ⟨h.1.addRecord r, h.2.tail (.record r)⟩)
        (fun t b h => ⟨h.1.addBatch b, h.2.tail (.batch b)⟩)
        (fun v hv t h => importAnchorReference_portable h.1 (hop v hv t h.2) h.2
          fun a => h.2.tail (.reference a))
        s ⟨hs, .refl⟩
    exact hplain (halone.mono (fun _ _ => id) (fun _ _ h => h.1) fun _ _ h => h.1) hx
  | importAnchorReference =>
    have halone := @importAnchorReference_portable _ s c.flaky (fun _ => True) _ hs hop trivial
      fun _ => trivial
    exact hplain (halone.mono (fun _ _ => id) (fun _ _ h => h.1) fun _ _ h => h.1) hx
  | createBatch => exact hplain (Service.createBatch_preserves hbatch _ _ _ s hs) hx
  | createDirectBatch => exact hplain (Service.createDirectBatch_preserves hbatch _ _ s hs) hx
  | anchorBatch => exact hunit (anchorBatch_portable hs _ _) hx
  | scanBitcoin => exact hplain (scanBitcoin_preserves hc.scanned c.flaky_within _ _ s hs) hx
  | resolveCommitments =>
    apply hplain _ hx
    apply Discovery.resolveCommitments_preserves hrecord hbatch _ _ _ _ s hs
    · exact fun _ r hr h _ => ⟨h.confirm (h.commitments r hr), h.register (h.commitments r hr)⟩
    · exact fun _ p h => h.markCommitmentResolved p

theorem GenuineRuns.portable (hs : GenuineRuns Store.Admits s) : s.Portable := by
  induction hs with
  | empty => exact ⟨fun _ h => absurd h Table.not_mem_empty, fun _ h => absurd h Table.not_mem_empty⟩
  | step op _ hc hop hx ih => exact op.portable hc hop ih hx

theorem Store.Indexed.run (h : s.Indexed) {β : Type} (call : StorageCall β) :
    (s.run call).2.Indexed := by
  rcases Store.run_batches (s := s) call with ⟨hb, hl⟩ | ⟨b, hrec, -, he⟩
  · rw [Store.Indexed, hb, hl]
    exact h
  · rw [he]
    intro b' hb' i hi
    rcases Table.mem_insertIgnore.mp hb' with hb' | ⟨rfl, -⟩
    · obtain ⟨l, hl, hid, hbid⟩ := h b' hb' i hi
      exact ⟨l, Table.mem_insertAll_of_mem hl, hid, hbid⟩
    · obtain ⟨l, hl, rfl, hbid⟩ := Store.exists_mem_linksOf hi
      obtain ⟨l', hl', hk⟩ := Table.exists_mem_insertAll (t := s.recordBatches) hl
      obtain ⟨hid', hbid'⟩ := Prod.mk.inj hk
      exact ⟨l', hl', hid', hbid'.trans hbid⟩

theorem NodeRuns.indexed (hs : NodeRuns s) : s.Indexed :=
  hs.preserves (fun _ hb => absurd hb Table.not_mem_empty) fun _ _ call h => h.run call

/-- While every reference that is stored can be encoded, every stored record has a bundle that is
accepted and verified. -/
theorem stored_record_has_bundle {r : Record} (hs : GenuineRuns Store.Admits s) (hd : s.Dicts)
    (hr : r ∈ s.records) :
    ∃ bundle v, Service.proofBundleForRecord s r.recordId = .ok (some bundle) ∧
      ProofBundles.validateProofBundleShape bundle = .ok () ∧
      Service.verifyProofBundle bundle = .ok v ∧ v.recordValid = true ∧
      ((∃ b ∈ s.batches, r.recordId ∈ b.recordIds) → v.allProofsValid = true) :=
  s.bundle_usable hd hs.nodeRuns.indexed hs.portable.anchors hr

theorem eval_importAnchorReference {a : Json} (hv : Anchors.validateAnchorReference a = .ok ())
    (hfits : (Service.localReference a none).Fits)
    (hb : ∃ b ∈ s.batches, b.batchId = a.text "batch_id") (hacc : s.Accepts a)
    (hfree : s.anchors.find? (refPoint a) = none) :
    ((Operation.importAnchorReference a).run.eval c.oracle s).2 =
      s.upsertAnchor (Service.localReference a none) hb := by
  have himport : (Operation.importAnchorReference a).run.Alone (environment c.flaky)
      (fun _ => True) (fun _ t => t = s.upsertAnchor (Service.localReference a none) hb) s := by
    simp only [Operation.run, bind_eq, Alone, ensures_bind]
    apply Service.importAnchorReference_alone hv _ hb
    · intro _ _ _
      change s.upsertAnchor (Service.localReference a (s.anchors.find? (refPoint a))) _ = _
      congr 1
      rw [hfree]
    · exact fun h => absurd hacc h
    · rw [hfree]
      exact hfits
  have hobeys : Obeys c.oracle (environment c.flaky) := c.obeys_oracle fun _ _ _ => Or.inl rfl
  exact Ensures.exec (fun _ => rfl) himport (exec_eval hobeys _ s)

end References

section Witness

attribute [local instance] conformanceKeys

/-- A chain without blocks. -/
def genesis : Chain where
  network := "signet"
  blocks := []
  hashes_nodup := by decide
  txids_nodup := by decide
  numbers_nodup := nofun

theorem genesis_genuine : genesis.Genuine where
  network := by decide
  hashes := nofun
  txids := nofun
  numbers := nofun
  tip := by decide

theorem Chain.obeys_genuine (c : Chain) : Obeys c.oracle (genuine c) := by
  intro β call s
  have henv : Obeys c.oracle (environment c.flaky) := c.obeys_oracle fun _ _ _ => Or.inl rfl
  refine ⟨henv call s, ?_⟩
  cases call with
  | storage call => trivial
  | rpc call => trivial
  | outside call =>
    cases call with
    | time => exact fun t ht => Except.ok.inj ht ▸ ⟨le_rfl, by decide⟩
    | getPackage => trivial
    | broadcastOpReturn => exact fun p hp => nomatch hp

theorem GenuineRuns.eval {P : Store → Operation → Prop} {s : Store} (op : Operation)
    (hs : GenuineRuns P s) (hop : P s op) : GenuineRuns P (op.run.eval genesis.oracle s).2 :=
  .step op hs genesis_genuine hop (exec_eval genesis.obeys_genuine op.run s)

theorem genuineRuns_conformanceStore {P : Store → Operation → Prop}
    (hsubmit : P .empty (.submitRecord conformanceRecord true Service.noPolicy))
    (himport : P recordStore (.importBatch conformanceBatch)) :
    GenuineRuns P conformanceStore := by
  have h₁ := GenuineRuns.eval _ .empty hsubmit
  rw [submit_conformanceRecord] at h₁
  have h₂ := h₁.eval _ himport
  rwa [import_conformanceBatch] at h₂

theorem stored_record_has_bundle_sample :
    ∃ bundle v, Service.proofBundleForRecord conformanceStore
        (Record.recordId ⟨conformanceRecord, conformanceRecord_valid⟩) = .ok (some bundle) ∧
      ProofBundles.validateProofBundleShape bundle = .ok () ∧
      Service.verifyProofBundle bundle = .ok v ∧ v.recordValid = true ∧
      ((∃ b ∈ conformanceStore.batches,
        Record.recordId ⟨conformanceRecord, conformanceRecord_valid⟩ ∈ b.recordIds) →
        v.allProofsValid = true) :=
  stored_record_has_bundle (genuineRuns_conformanceStore trivial trivial) conformanceStore_dicts
    List.mem_cons_self

def lateStore : Store :=
  conformanceStore.upsertAnchor (Service.localReference lateReference none) lateReference_batch

/-- Once the reference is imported, the record of the conformance vector has no bundle. -/
theorem late_reference_blocks_bundle : ∃ s, GenuineRuns (fun _ _ => True) s ∧
    ∃ r ∈ s.records, ∀ bundle, Service.proofBundleForRecord s r.recordId ≠ .ok bundle := by
  have hrun := (genuineRuns_conformanceStore (P := fun _ _ => True) trivial trivial).eval
    (.importAnchorReference lateReference) trivial
  rw [eval_importAnchorReference lateReference_valid lateReference_fits lateReference_batch
    lateReference_accepted find?_lateReference] at hrun
  refine ⟨lateStore, hrun, ⟨conformanceRecord, conformanceRecord_valid⟩, List.mem_cons_self, ?_⟩
  intro bundle hbundle
  have hraises : (Service.proofBundleForRecord lateStore
      (Record.recordId ⟨conformanceRecord, conformanceRecord_valid⟩)).toOption.isNone := by
    decide +kernel
  rw [hbundle] at hraises
  cases hraises

end Witness

end HistoryAnchor

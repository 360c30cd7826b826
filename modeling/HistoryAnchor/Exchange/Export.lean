import HistoryAnchor.Effects.Scripts
import HistoryAnchor.Exchange.Snapshots

/-! # A node exports itself

An export validates the whole store under rules that the imports do not all check:
targets are stored, and anchors have the form and the integers of JSON. While no
record is stored before its target and no other anchor is stored, it returns.
-/

namespace HistoryAnchor

open Python Effects Prog Tables

section Export

variable [Ed25519] {rpcAnswers : Answers} {s s' : Store} {a : Anchor}

def jsonNatural (n : ℤ) : Prop := 0 ≤ n ∧ n ≤ Codec.maxSafeJsonInteger

omit [Ed25519] in
/-- An anchor has the form of a reference, with integers that JSON represents. -/
structure Anchor.Portable (a : Anchor) : Prop where
  txid : ∃ raw, IsDigest a.txid raw
  vout : jsonNatural a.vout
  batchId : ∃ raw, IsDigest a.batchId raw
  network : a.network ∈ Batches.allowedNetworks
  anchoredAt : jsonNatural a.anchoredAt
  blockHash : ∀ h, a.blockHash = some h → ∃ raw, IsDigest h raw
  blockHeight : ∀ n, a.blockHeight = some n → jsonNatural n

omit [Ed25519] in
theorem validateAnchorReference_json_iff : Anchors.validateAnchorReference a.json = .ok () ↔
    (∃ raw, IsDigest a.txid raw) ∧ (∃ raw, IsDigest a.batchId raw) ∧
    a.network ∈ Batches.allowedNetworks ∧ 0 ≤ a.anchoredAt ∧
    (∀ h, a.blockHash = some h → ∃ raw, IsDigest h raw) ∧
    ∀ n, a.blockHeight = some n → 0 ≤ n := by
  have hstatus : a.status.text ∈ Anchors.allowedStatuses := by
    cases a.status <;> decide
  have hnetwork : memberOf (.str a.network) Batches.allowedNetworks = .ok true ↔
      a.network ∈ Batches.allowedNetworks := by
    rw [memberOf, Except.ok.injEq, decide_eq_true_eq]
  have hhash : Anchors.digestOrNull ((a.blockHash.map Json.str).getD .null) "block_hash" =
      .ok () ↔ ∀ h, a.blockHash = some h → ∃ raw, IsDigest h raw := by
    cases a.blockHash with
    | none =>
      refine iff_of_true rfl ?_
      rintro _ ⟨⟩
    | some h =>
      rw [Option.map_some, Option.getD_some, Anchors.digestOrNull_str]
      exact ⟨fun h _ he => Option.some.inj he ▸ h, fun h => h _ rfl⟩
  have hheight : Anchors.naturalOrNull ((a.blockHeight.map Json.int).getD .null) = true ↔
      ∀ n, a.blockHeight = some n → 0 ≤ n := by
    cases a.blockHeight with
    | none =>
      refine iff_of_true rfl ?_
      rintro _ ⟨⟩
    | some n =>
      rw [Option.map_some, Option.getD_some, Anchors.naturalOrNull, Json.isNatural,
        decide_eq_true_eq]
      · exact ⟨fun h _ he => Option.some.inj he ▸ h, fun h => h _ rfl⟩
      · rintro ⟨⟩
  rw [Anchor.json, Anchors.validateAnchorReference_iff, ← Anchor.json, ← hnetwork, ← hhash,
    ← hheight]
  constructor
  · rintro ⟨-, ⟨txid, ht, htx⟩, -, ⟨i, hi, hid⟩, hn, -, ha, hh, hk⟩
    obtain rfl : a.txid = txid := Json.str.inj ht
    obtain rfl : a.batchId = i := Json.str.inj hi
    exact ⟨htx, hid, hn, of_decide_eq_true ha, hh, hk⟩
  · rintro ⟨htx, hid, hn, ha, hh, hk⟩
    exact ⟨rfl, ⟨_, rfl, htx⟩, rfl, ⟨_, rfl, hid⟩, hn, congrArg Except.ok (decide_eq_true hstatus),
      decide_eq_true ha, hh, hk⟩

omit [Ed25519] in
/-- The row of a portable anchor is a valid reference that can be encoded in a snapshot, and every
such row is portable. -/
theorem portable_iff : a.Portable ↔
    Anchors.validateAnchorReference a.json = .ok () ∧ Encodes 2 a.json := by
  rw [validateAnchorReference_json_iff]
  constructor
  · intro h
    obtain ⟨⟨_, htx⟩, ⟨_, hid⟩⟩ := And.intro h.txid h.batchId
    have hsafe : ∀ {n : ℤ}, jsonNatural n →
        -Codec.maxSafeJsonInteger ≤ n ∧ n ≤ Codec.maxSafeJsonInteger := by
      rintro n ⟨h₀, h₁⟩
      exact ⟨le_trans (by decide) h₀, h₁⟩
    have hnetwork : ∀ n ∈ Batches.allowedNetworks, Encodable n := by
      simp only [Batches.allowedNetworks, List.forall_mem_cons]
      exact ⟨encodable_of_all (by decide), encodable_of_all (by decide),
        encodable_of_all (by decide), fun _ h => absurd h List.not_mem_nil⟩
    have hstatus : Encodable a.status.text := by
      cases a.status <;> exact encodable_of_all (by decide)
    have hhash : Encodes 3 ((a.blockHash.map Json.str).getD .null) := by
      cases hh : a.blockHash with
      | none => exact .null (by omega)
      | some hash =>
        obtain ⟨_, hraw⟩ := h.blockHash hash hh
        exact .str (by omega) hraw.encodable
    have hheight : Encodes 3 ((a.blockHeight.map Json.int).getD .null) := by
      cases hn : a.blockHeight with
      | none => exact .null (by omega)
      | some n => exact .int (by omega) (hsafe (h.blockHeight n hn))
    refine ⟨⟨h.txid, h.batchId, h.network, h.anchoredAt.1, h.blockHash,
      fun n hn => (h.blockHeight n hn).1⟩, ?_⟩
    apply Encodes.obj (by omega)
    · simp only [List.forall_mem_cons]
      exact ⟨encodable_of_all (by decide), encodable_of_all (by decide),
        encodable_of_all (by decide), encodable_of_all (by decide), encodable_of_all (by decide),
        encodable_of_all (by decide), encodable_of_all (by decide), encodable_of_all (by decide),
        fun _ h => absurd h List.not_mem_nil⟩
    · simp only [List.forall_mem_cons]
      exact ⟨.str (by omega) htx.encodable, .int (by omega) (hsafe h.vout),
        .str (by omega) hid.encodable, .str (by omega) (hnetwork _ h.network),
        .str (by omega) hstatus, .int (by omega) (hsafe h.anchoredAt), hhash, hheight,
        fun _ h => absurd h List.not_mem_nil⟩
  · rintro ⟨⟨htx, hid, hn, ha, hh, hk⟩, henc⟩
    have hint : ∀ {k : PyStr} {n : ℤ}, a.json.get k = some (.int n) →
        n ≤ Codec.maxSafeJsonInteger := by
      intro k n hget
      cases Archive.encodes_get henc hget with
      | int _ h => exact h.2
    refine ⟨htx, ⟨Int.natCast_nonneg _, hint (k := "vout") rfl⟩, hid, hn,
      ⟨ha, hint (k := "anchored_at") rfl⟩, hh, fun n he => ⟨hk n he, ?_⟩⟩
    apply hint (k := "block_height")
    rw [Anchor.json, he]
    rfl

namespace Store

/-- The targets of the records are stored, and the anchors are portable. -/
structure Exportable (s : Store) : Prop where
  targets : ∀ row ∈ s.records, row.target = [] ∨ s.Has row.target
  anchors : ∀ a ∈ s.anchors, a.Portable

/-- The contents of an export: what the tables guarantee is there in every store whose batches have
their records. -/
theorem contents_iff (hclosed : s.Closed) :
    Archive.Contents (s.records.rows.map Record.body) (s.batches.rows.map Batch.body)
      (s.anchors.rows.map Anchor.json) ↔
      (∀ row ∈ s.records, row.target = [] ∨ s.Has row.target) ∧
      ∀ a ∈ s.anchors, Anchors.validateAnchorReference a.json = .ok () := by
  have hids : (s.records.rows.map Record.body).map (Json.text · "record_id") =
      s.records.rows.map Record.recordId := by
    rw [List.map_map]
    rfl
  have hhas : ∀ i, i ∈ s.records.rows.map Record.recordId ↔ s.Has i := fun i => List.mem_map
  constructor
  · intro h
    constructor
    · intro row hrow
      have ht := h.targets row.body (List.mem_map_of_mem hrow)
      rwa [hids, hhas] at ht
    · exact fun a ha => h.anchors a.json (List.mem_map_of_mem ha)
  · rintro ⟨htargets, hanchors⟩
    constructor
    · exact List.forall_mem_map.mpr fun row _ => row.valid
    · rw [hids]
      exact s.records.nodup
    · intro v hv
      obtain ⟨row, hrow, rfl⟩ := List.mem_map.mp hv
      rw [hids, hhas]
      exact htargets row hrow
    · exact List.forall_mem_map.mpr fun b _ => b.valid
    · rw [List.map_map]
      exact s.batches.nodup
    · intro v hv r hr
      obtain ⟨b, hb, rfl⟩ := List.mem_map.mp hv
      rw [hids, hhas]
      exact hclosed b hb _ (List.mem_map_of_mem hr)
    · exact List.forall_mem_map.mpr hanchors
    · rw [List.map_map]
      exact s.anchors.nodup
    · intro v hv
      obtain ⟨a, ha, rfl⟩ := List.mem_map.mp hv
      obtain ⟨b, hb, hid⟩ := s.anchor_fk a ha
      rw [List.map_map]
      exact List.mem_map.mpr ⟨b, hb, hid⟩

end Store

def NodeCall.Dated : {β : Type} → NodeCall β → Py β → Prop
  | _, .outside .time, x => ∀ t, x = .ok t → jsonNatural t
  | _, _, _ => True

def dated (rpcAnswers : Answers) : Handler NodeCall Exc Store := fun _ call s x s' =>
  environment rpcAnswers call s x s' ∧ call.Dated x

/-- Where the queries return the tables in full, the export returns exactly if the store is
exportable. -/
theorem exportSnapshot_alone (hclosed : s.Closed) (hd : s.Dicts)
    (hr : s.records.rows.length ≤ 10000000) (hb : s.batches.rows.length ≤ 10000000) :
    Service.exportSnapshot.Alone (dated rpcAnswers) (fun _ => True)
      (fun r _ => (∃ snapshot, r = .ok snapshot) ↔ s.Exportable) s := by
  rw [Service.exportSnapshot, bind_eq, Alone, ensures_bind, now, ensures_perform]
  rintro _ rfl x s' ⟨⟨⟨t, rfl⟩, rfl⟩, hdated⟩
  have ht : jsonNatural t := hdated t rfl
  refine ⟨trivial, ?_⟩
  rw [thenOk_ok]
  apply Ensures.restrict (H := environment rpcAnswers) fun _ _ _ _ _ h => h.1
  have hrecords : Store.limited 10000000 s'.records.rows = s'.records.rows := by
    rw [Store.limited, if_neg (by omega), List.take_of_length_le (by simpa using hr)]
  have hbatches : (Store.limited 10000000 s'.batches.rows.reverse).reverse = s'.batches.rows := by
    rw [Store.limited, if_neg (by omega), List.take_of_length_le (by simpa using hb),
      List.reverse_reverse]
  simp only [bind_eq, ensures_bind, storage_ensures, forall_eq', Store.run,
    Store.query_ok (by decide : sqliteInt 10000000), thenOk_ok, ensures_ofExcept, hrecords,
    hbatches, true_and]
  set members := Archive.exportedMembers t (s'.records.rows.map Record.body)
    (s'.batches.rows.map Batch.body) (s'.anchors.rows.map Anchor.json) with hmembers
  have hbody : Archive.snapshotBody (.obj members) = .obj members := rfl
  -- The snapshot has an identifier exactly if the anchors can be encoded.
  have hencodes : (∃ id, Archive.calculateSnapshotId (.obj members) = .ok id) ↔
      ∀ a ∈ s'.anchors, Encodes 2 a.json := by
    rw [Archive.exists_calculateSnapshotId_iff, hbody, Archive.encodes_exportedMembers_iff]
    constructor
    · exact fun h a ha => h.2.2.2 a.json (List.mem_map_of_mem ha)
    · intro h
      refine ⟨⟨le_trans (by decide) ht.1, ht.2⟩, ?_, ?_, List.forall_mem_map.mpr h⟩
      · exact List.forall_mem_map.mpr fun row hrow =>
          Records.validateRecord_encodes row.valid (hd.records row hrow) (by omega)
      · exact List.forall_mem_map.mpr fun b hb =>
          Batches.validateBatch_encodes b.valid (hd.batches b hb) (by omega)
  have hexportable : s'.Exportable ↔ (∀ a ∈ s'.anchors, Encodes 2 a.json) ∧
      Archive.Contents (s'.records.rows.map Record.body) (s'.batches.rows.map Batch.body)
        (s'.anchors.rows.map Anchor.json) := by
    rw [Store.contents_iff hclosed]
    constructor
    · exact fun h => ⟨fun a ha => (portable_iff.mp (h.anchors a ha)).2, h.targets,
        fun a ha => (portable_iff.mp (h.anchors a ha)).1⟩
    · rintro ⟨henc, htargets, hvalid⟩
      exact ⟨htargets, fun a ha => portable_iff.mpr ⟨hvalid a ha, henc a ha⟩⟩
  rw [hexportable, ← hencodes]
  cases hid : Archive.calculateSnapshotId (.obj members) with
  | error e =>
    rw [thenOk_error]
    apply iff_of_false
    · rintro ⟨_, h⟩
      cases h
    · rintro ⟨⟨_, h⟩, -⟩
      cases h
  | ok id =>
    have hvalid := Archive.validateSnapshot_exported_iff ht.1 hid
    simp only [thenOk_ok, ensures_bind, ensures_ofExcept]
    cases hv : Archive.validateSnapshot (.obj (members ++
        ([("snapshot_id", .str id)] : List (PyStr × Json)))) with
    | error e =>
      rw [hv] at hvalid
      rw [thenOk_error]
      apply iff_of_false
      · rintro ⟨_, h⟩
        cases h
      · rintro ⟨-, h⟩
        cases hvalid.mpr h
    | ok _ =>
      rw [hv] at hvalid
      exact iff_of_true ⟨_, rfl⟩ ⟨⟨id, rfl⟩, hvalid.mp rfl⟩

/-- The call stores no record before its target and no anchor that is not portable. -/
def NodeCall.Portable (s : Store) : {β : Type} → NodeCall β → Prop
  | _, .storage (.addRecord r) => r.target = [] ∨ s.Has r.target
  | _, .storage (.addAnchor a) => a.Portable
  | _, _ => True

def careful (rpcAnswers : Answers) : Handler NodeCall Exc Store := fun _ call s x s' =>
  environment rpcAnswers call s x s' ∧ call.Portable s

/-- Operations one after another, with any outcomes, whose calls are portable. -/
inductive PortableRuns : Store → Prop
  | empty : PortableRuns .empty
  | step {s s' : Store} {r : Py Unit} (rpcAnswers : Answers) (op : Operation) :
      PortableRuns s → op.run.Exec (careful rpcAnswers) s r s' → PortableRuns s'

theorem PortableRuns.nodeRuns (hs : PortableRuns s) : NodeRuns s := by
  induction hs with
  | empty => exact .empty
  | step rpcAnswers op _ hx ih => exact .step rpcAnswers op ih (hx.mono fun _ _ _ _ _ h => h.1)

namespace Store

theorem anchors_addCommitment (c : Commitment) : (s.addCommitment c).2.anchors = s.anchors := by
  unfold addCommitment
  split_ifs <;> rfl

theorem anchors_addScannedBlock (row : BlockRow) :
    (s.addScannedBlock row).2.anchors = s.anchors := by
  unfold addScannedBlock
  split_ifs <;> rfl

theorem portable_run {β : Type} {c : StorageCall β} (hc : (NodeCall.storage c).Portable s)
    (h : ∀ a ∈ s.anchors, a.Portable) : ∀ a ∈ (s.run c).2.anchors, a.Portable := by
  intro a ha
  cases c with
  | addAnchor new =>
    simp only [run] at ha
    rcases s.addAnchor_cases new with ⟨hfk, he⟩ | he
    · rw [he] at ha
      rcases Table.mem_upsert.mp ha with ⟨ha, -⟩ | ⟨_, -, -, rfl⟩ | ⟨rfl, -⟩
      · exact h a ha
      · exact hc
      · exact hc
    · rw [he] at ha
      exact h a ha
  | addBatch b =>
    simp only [run, anchors_addBatch] at ha
    exact h a ha
  | addCommitment row =>
    simp only [run, anchors_addCommitment] at ha
    exact h a ha
  | addScannedBlock row =>
    simp only [run, anchors_addScannedBlock] at ha
    exact h a ha
  | rewindBitcoinScan ancestor =>
    obtain ⟨a', ha', rfl⟩ := mem_anchors_rewindBitcoinScan.mp ha
    have hp := h a' ha'
    split_ifs
    · exact ⟨hp.txid, hp.vout, hp.batchId, hp.network, hp.anchoredAt, hp.blockHash, hp.blockHeight⟩
    · exact hp
  | _ => exact h a ha

theorem mem_records_of_run {β : Type} {c : StorageCall β} {row : Record}
    (h : row ∈ (s.run c).2.records) : row ∈ s.records ∨
      ((NodeCall.storage c).Portable s → row.target = [] ∨ s.Has row.target) := by
  cases c with
  | addRecord r =>
    rcases Table.mem_insertIgnore.mp h with h | ⟨rfl, -⟩
    · exact Or.inl h
    · exact Or.inr id
  | addBatch b =>
    simp only [run, records_addBatch] at h
    exact Or.inl h
  | addAnchor a =>
    simp only [run, records_addAnchor] at h
    exact Or.inl h
  | addScannedBlock row =>
    simp only [run, addScannedBlock] at h
    split_ifs at h <;> exact Or.inl h
  | addCommitment c =>
    simp only [run, addCommitment] at h
    split_ifs at h <;> exact Or.inl h
  | _ => exact Or.inl h

theorem Exportable.run (h : s.Exportable) {β : Type} {c : StorageCall β}
    (hc : (NodeCall.storage c).Portable s) : (s.run c).2.Exportable := by
  refine ⟨fun row hrow => ?_, portable_run hc h.anchors⟩
  have htarget : row.target = [] ∨ s.Has row.target := by
    rcases mem_records_of_run hrow with hold | hnew
    · exact h.targets row hold
    · exact hnew hc
  rcases htarget with hnil | ⟨target, ht, hid⟩
  · exact Or.inl hnil
  · exact Or.inr ⟨target, mem_records_run c ht, hid⟩

end Store

theorem PortableRuns.exportable (hs : PortableRuns s) : s.Exportable := by
  induction hs with
  | empty =>
    exact ⟨fun _ h => absurd h Table.not_mem_empty, fun _ h => absurd h Table.not_mem_empty⟩
  | step rpcAnswers op _ hx ih =>
    have hpreserves : op.run.Preserves (careful rpcAnswers) Store.Exportable := by
      apply preserves_of_calls
      rintro β c s x s' hs ⟨hx, hc⟩
      cases c with
      | storage c =>
        have he : s' = (s.run c).2 := congrArg Prod.snd hx
        rw [he]
        exact hs.run hc
      | rpc c => exact hx.2 ▸ hs
      | outside c => exact hx.2 ▸ hs
    exact hpreserves.exec ih hx

/-- While no record is stored before its target and no anchor that is not portable, the node can
export itself. -/
theorem export_returns (hs : PortableRuns s) (hd : s.Dicts)
    (hr : s.records.rows.length ≤ 10000000) (hb : s.batches.rows.length ≤ 10000000) :
    ∀ r s', Service.exportSnapshot.Exec (dated rpcAnswers) s r s' →
      ∃ snapshot, r = .ok snapshot := by
  intro r s' hx
  have h := @exportSnapshot_alone _ rpcAnswers s hs.nodeRuns.closed hd hr hb
  exact (Ensures.exec (fun _ => rfl) h hx).mpr hs.exportable

def NodeCall.Harmless {β : Type} (c : NodeCall β) : Prop := ∀ s : Store, c.Portable s

theorem PortableRuns.eval {op : Operation} (hop : op.run.Calls fun _ c => c.Harmless)
    (hs : PortableRuns s) (c : Chain) : PortableRuns (op.run.eval c.oracle s).2 := by
  have hx := exec_eval (H := environment c.truthful) (c.obeys_oracle fun _ _ _ => rfl) op.run s
  exact .step _ op hs (hop.exec (fun _ _ _ _ _ hc h => ⟨h, hc _⟩) hx)

theorem submitRecord_harmless {record : Json} {requireLocalTarget : Bool}
    {localPolicy : Json → Py Unit} (h : record.text "target_record_id" = []) :
    (Operation.submitRecord record requireLocalTarget localPolicy).run.Calls
      fun _ c => c.Harmless := by
  refine Calls.bind ?_ fun _ => calls_ret _
  exact Service.submitRecord_calls_of (fun _ _ => trivial) (fun _ _ => Or.inl h) _ _

theorem importBatch_harmless (batch : Json) :
    (Operation.importBatch batch).run.Calls fun _ c => c.Harmless := by
  simp only [Operation.run, Service.importBatch]
  split
  · exact calls_raise _
  · have hcount : ∀ ids : List PyStr, (ids.foldlM (fun (n : ℕ) recordId => do
        let r ← storage (.record recordId)
        return if r.isNone then n + 1 else n) 0).Calls fun _ c => NodeCall.Harmless c :=
      fun ids => calls_foldlM (fun _ _ => (calls_perform fun _ => trivial).bind fun _ =>
        calls_ret _) ids 0
    refine Calls.bind ((hcount _).bind fun missing => ?_) fun _ => calls_ret _
    refine (calls_ofExcept _).bind fun _ => ?_
    exact (calls_perform fun _ => trivial).bind fun _ => calls_ret _

theorem PortableRuns.submitRecord {record : Json} (hs : PortableRuns s) (c : Chain)
    (h : record.text "target_record_id" = []) (requireLocalTarget : Bool)
    (localPolicy : Json → Py Unit) : PortableRuns
      ((Operation.submitRecord record requireLocalTarget localPolicy).run.eval c.oracle s).2 :=
  hs.eval (submitRecord_harmless h) c

theorem PortableRuns.importBatch (hs : PortableRuns s) (c : Chain) (batch : Json) :
    PortableRuns ((Operation.importBatch batch).run.eval c.oracle s).2 :=
  hs.eval (importBatch_harmless batch) c

theorem Chain.obeys_dated (c : Chain) : Obeys c.oracle (dated c.truthful) := by
  intro β call t
  have henv : Obeys c.oracle (environment c.truthful) := c.obeys_oracle fun _ _ _ => rfl
  refine ⟨henv call t, ?_⟩
  cases call with
  | storage call => trivial
  | rpc call => trivial
  | outside call =>
    cases call with
    | time => exact fun t ht => Except.ok.inj ht ▸ ⟨le_rfl, by decide⟩
    | getPackage => trivial
    | broadcastOpReturn => trivial

theorem exists_export_raises {v : Json} (c : Chain) (hs : NodeRuns s) (hd : s.Dicts)
    (hr : s.records.rows.length ≤ 10000000) (hb : s.batches.rows.length ≤ 10000000)
    (hv : Anchors.validateAnchorReference v = .ok ())
    (hfits : (Service.localReference v (s.anchors.find? (refPoint v))).Fits)
    (hbatch : ∃ b ∈ s.batches, b.batchId = v.text "batch_id") (hacc : s.Accepts v)
    (hnot : ¬ (Service.localReference v (s.anchors.find? (refPoint v))).Portable) :
    ∃ t, NodeRuns t ∧ ∃ r t', Service.exportSnapshot.Exec (dated c.truthful) t r t' ∧
      ¬ ∃ snapshot, r = .ok snapshot := by
  have hx := exec_eval (H := environment c.truthful) (c.obeys_oracle fun _ _ _ => rfl)
    (Operation.importAnchorReference v).run s
  have hrun : (Operation.importAnchorReference v).run.Alone (environment c.truthful)
      (fun _ => True) (fun _ t => t.records = s.records ∧ t.batches = s.batches ∧
        ∃ a ∈ t.anchors, ¬ a.Portable) s := by
    simp only [Operation.run, bind_eq, Alone, ensures_bind]
    apply Service.importAnchorReference_alone hv hfits hbatch
    · exact fun _ _ _ => ⟨rfl, rfl, _, Table.mem_upsert_new, hnot⟩
    · exact fun h => absurd hacc h
  obtain ⟨hrecords, hbatches, a, ha, hlate⟩ := Ensures.exec (fun _ => rfl) hrun hx
  have ht := NodeRuns.step _ _ hs hx
  have hexport := exec_eval c.obeys_dated Service.exportSnapshot
    ((Operation.importAnchorReference v).run.eval c.oracle s).2
  refine ⟨_, ht, _, _, hexport, fun hok => hlate ?_⟩
  have hdt : Store.Dicts ((Operation.importAnchorReference v).run.eval c.oracle s).2 :=
    ⟨fun row hrow => hd.records row (hrecords ▸ hrow), fun b hb => hd.batches b (hbatches ▸ hb)⟩
  have hiff := Ensures.exec (fun _ => rfl) (exportSnapshot_alone ht.closed hdt
    (by rw [hrecords]; exact hr) (by rw [hbatches]; exact hb)) hexport
  exact (hiff.mp hok).anchors a ha

end Export

section Witness

attribute [local instance] conformanceKeys

theorem portableRuns_conformanceStore : PortableRuns conformanceStore := by
  have htarget : conformanceRecord.text "target_record_id" = [] := rfl
  have h₁ := PortableRuns.empty.submitRecord sampleOld htarget true Service.noPolicy
  rw [submit_conformanceRecord] at h₁
  have h₂ := h₁.importBatch sampleOld conformanceBatch
  rwa [import_conformanceBatch] at h₂

theorem export_returns_sample :
    ∃ snapshot, (Service.exportSnapshot.eval sampleOld.oracle conformanceStore).1 = .ok snapshot :=
  export_returns portableRuns_conformanceStore conformanceStore_dicts (by decide) (by decide) _ _
    (exec_eval sampleOld.obeys_dated Service.exportSnapshot conformanceStore)

/-- A reference to the batch of the conformance vector with a time beyond the integers of JSON. -/
def lateReference : Json :=
  .obj [
    ("txid", .str "fe4fd10287faaea0736fe25fb849264527c0387bc8968786a9c19d8fa5aefeb5"),
    ("vout", .int 0),
    ("batch_id", .str "5ca8c08e0aefbc9ecced864f9499b9f7c2b8af326257f6de2f9dd5488ba356fd"),
    ("network", .str "signet"), ("status", .str "confirmed"),
    ("anchored_at", .int 9007199254740992), ("block_hash", .null), ("block_height", .null)]

theorem find?_lateReference : conformanceStore.anchors.find? (refPoint lateReference) = none := rfl

theorem lateReference_valid : Anchors.validateAnchorReference lateReference = .ok () := by
  decide +kernel

theorem lateReference_fits : (Service.localReference lateReference none).Fits := by
  decide +kernel

theorem lateReference_batch :
    ∃ b ∈ conformanceStore.batches, b.batchId = lateReference.text "batch_id" :=
  ⟨storedBatch, List.mem_cons_self, by decide +kernel⟩

theorem lateReference_accepted : conformanceStore.Accepts lateReference := by
  constructor
  · intro b hb _
    rw [List.mem_singleton.mp (show b ∈ [storedBatch] from hb)]
    decide +kernel
  · rw [find?_lateReference]
    nofun

/-- A node that has imported the reference cannot export itself. -/
theorem late_reference_blocks_export : ∃ s, NodeRuns s ∧ ∃ r s',
    Service.exportSnapshot.Exec (dated sampleOld.truthful) s r s' ∧
    ¬ ∃ snapshot, r = .ok snapshot := by
  apply exists_export_raises sampleOld serviceRuns_conformanceStore.nodeRuns conformanceStore_dicts
    (by decide) (by decide) lateReference_valid _ lateReference_batch lateReference_accepted
  · rw [find?_lateReference]
    intro h
    exact absurd h.anchoredAt.2 (by decide)
  · rw [find?_lateReference]
    exact lateReference_fits

end Witness

end HistoryAnchor

import HistoryAnchor.Node.Preservation
import HistoryAnchor.Scan.Switching

/-! # No confirmation without a scanned commitment

The operations of the service, run one after another from an empty node while
the active chain changes between them. Imports and local operations never
confirm an anchor; a scan and the resolution of a commitment confirm it from a
row whose batch is stored; and every row belongs to the chain of the last scan.
-/

namespace HistoryAnchor

open Python Effects Prog Discovery Tables

section Runs

variable [Ed25519] {F : Set Chain} {s s' : Store} {c d : Chain}

namespace Store

/-- The stored blocks and the commitment rows are those of blocks of the chain. -/
structure Of (s : Store) (c : Chain) : Prop where
  on : s.On c
  settled : s.Settled
  commits : ∀ x ∈ s.cores, c.Commits x

theorem Of.commits_of_on (hs : s.Of d) (ha : d.Agree c) {s' : Store} (hset : s'.Settled)
    (hon : s'.On c) (hsub : s'.cores ⊆ s.cores) : ∀ x ∈ s'.cores, c.Commits x := by
  intro x hx
  have hdx := hs.commits x (hsub hx)
  obtain ⟨row, hr, he⟩ := hset x hx
  obtain ⟨hh, hhash⟩ := Prod.mk.inj he
  have hcx := hon row hr
  rw [hh, hhash] at hcx
  exact hdx.of_agree le_rfl fun j hj =>
    ha.below hdx.hashAt hcx j (Int.lt_add_one_iff.mpr hj)

end Store

/-- A scan of one chain, from a store whose blocks and rows are of a chain that agrees with it. -/
theorem scanBitcoin_of {rpcAnswers : Answers} {N M : Store → Prop} (start maxBlocks : ℤ)
    (hk : Keeps c ∅ N M) (hrpc : rpcAnswers.Within c) (ha : d.Agree c) (hs : s.Of d) (hN : N s) :
    (scanBitcoin start maxBlocks).Alone (environment rpcAnswers) (fun _ => True)
      (thenOk (fun _ s' => s'.Of c ∧ N s') fun _ s' => (s'.On c ∨ s'.On d) ∧ M s') s := by
  have hsettled := @scanBitcoin_settled _ s rpcAnswers (· = c) (fun s' => s'.On c ∨ s'.On d) start
    maxBlocks (fun s' ⟨c', hc', hon⟩ => Or.inl (hc' ▸ hon)) (Or.inr hs.on) hs.settled
    (fun s h x b ⟨c', hc', hon⟩ _ hf => ⟨c', hc', hon, hc' ▸ hrpc.hashAt hf.2.1⟩)
    (fun h => ⟨c, rfl, Store.on_of_latest_none h c⟩)
    (fun row h hx => ⟨c, rfl, hs.on.of_latest ha h (hrpc.hashAt hx)⟩)
    (fun a h => ⟨c, rfl, h.on hrpc hs.on ha⟩)
  have hcommits : (scanBitcoin start maxBlocks).Alone (environment rpcAnswers) (fun _ => True)
      (thenOk (fun _ s' => (∀ x ∈ s'.cores, c.Commits x) ∧ N s') fun _ => M) s := by
    apply scanBitcoin_alone trivial (fun _ => hk.weaken s hN) fun _ _ s' =>
      (∀ x ∈ s'.cores, c.Commits x) ∧ N s'
    · intro tip _
      apply entry_alone trivial
      · exact fun h =>
          ⟨hs.commits_of_on ha hs.settled (Store.on_of_latest_none h c) subset_rfl, hN⟩
      · exact fun row h _ _ hx => ⟨hs.commits_of_on ha hs.settled
          (hs.on.of_latest ha h (hrpc.hashAt hx)) subset_rfl, hN⟩
      · intro row h _ a _ hanc
        refine ⟨trivial, hs.commits_of_on ha (hs.settled.rewind a)
          (hanc.on hrpc hs.on ha) ?_, hk.rewind s a hN⟩
        rw [Store.cores_rewindBitcoinScan]
        exact Set.sep_subset _ _
    · rintro tip network found next s₁ - ⟨hc₁, hN₁⟩
      apply scanBlock_alone trivial (fun _ => hk.weaken s₁ hN₁) fun _ _ _ s₂ =>
        (∀ x ∈ s₂.cores, c.Commits x) ∧ N s₂
      · exact fun _ _ _ => ⟨hc₁, hN₁⟩
      · rintro x b hf done o rest s₂ hb ⟨hc₂, hN₂⟩
        have ho : o ∈ b.accepted := hb ▸ List.mem_append_right _ List.mem_cons_self
        set ctx : BlockContext := ⟨network, next, x, b.blockTime⟩ with hctx
        have hcommits : c.Commits (o.core ctx.height ctx.blockHash) :=
          Chain.commits_of_mem (hrpc.at? hf) ho
        have honly : s₂.Only ∅ o ctx := fun y hy hp =>
          Or.inr ((hc₂ y hy).eq_of_point hcommits hp)
        have hup : ∀ t h, ∀ y ∈ (s₂.upsertCommitment (o.row ctx t) h).cores, c.Commits y := by
          intro t h y hy
          rw [Store.cores_upsertCommitment] at hy
          rcases hy with rfl | ⟨hy, -⟩
          · exact hcommits
          · exact hc₂ y hy
        apply recordCommitment_alone trivial
        · exact fun _ => hk.weaken s₂ hN₂
        · exact fun _ _ => trivial
        · exact fun t h habs => ⟨hup t h, hk.absent s₂ o ctx t h hN₂ honly hcommits habs⟩
        · intro t h hl r hr he
          refine ⟨trivial, trivial, ?_, (hk.found s₂ o ctx t h hN₂ honly hcommits hl r hr he).2⟩
          rw [Store.cores_register]
          exact hup t h
        · exact fun t h _ _ _ => hk.upsert s₂ o ctx t h hN₂ honly hcommits
      · rintro x b - s₂ ⟨hc₂, hN₂⟩
        exact ⟨trivial, fun _ => hk.weaken s₂ hN₂, trivial, fun _ => ⟨hc₂, hk.put s₂ _ hN₂⟩⟩
    · exact fun _ _ _ _ h => h
  apply (hsettled.and hcommits).post
  rintro (e | r) s' ⟨h, h'⟩
  · exact ⟨h, h'⟩
  · obtain ⟨⟨_, rfl, hon⟩, hset⟩ := h
    exact ⟨⟨hon, hset, h'.1⟩, h'.2⟩

namespace Store

theorem addAnchor_frame (s : Store) (a : Anchor) :
    (s.addAnchor a).2.batches = s.batches ∧ (s.addAnchor a).2.commitments = s.commitments ∧
      (s.addAnchor a).2.bitcoinBlocks = s.bitcoinBlocks := by
  rcases s.addAnchor_cases a with ⟨h, he⟩ | he <;> rw [he] <;> exact ⟨rfl, rfl, rfl⟩

theorem mem_or_eq_of_mem_addAnchor {a a' : Anchor} (h : a' ∈ (s.addAnchor a).2.anchors) :
    a' ∈ s.anchors ∨ a' = a := by
  rcases s.addAnchor_cases a with ⟨hl, he⟩ | he
  · rw [he] at h
    have hmem := (@Table.mem_upsert _ _ _ _ s.anchors (fun _ new => new) (fun _ _ => rfl) a a').mp h
    rcases hmem with ⟨hold, -⟩ | ⟨_, _, _, rfl⟩ | ⟨rfl, -⟩
    · exact Or.inl hold
    · exact Or.inr rfl
    · exact Or.inr rfl
  · exact Or.inl (he ▸ h)

theorem Sound.addAnchor (hs : s.Sound) {a : Anchor} (ha : a.status = .confirmed →
    ∃ r ∈ s.commitments, a.Confirms r ∧ s.Local r.batchId r.payloadHex) :
    (s.addAnchor a).2.Sound := by
  obtain ⟨hb, hc, -⟩ := s.addAnchor_frame a
  intro a' ha' hst
  simp only [Local, hb, hc]
  rcases mem_or_eq_of_mem_addAnchor ha' with hold | rfl
  · exact hs a' hold hst
  · exact ha hst

theorem Local.addBatch {batchId payloadHex : PyStr} (h : s.Local batchId payloadHex) (b : Batch) :
    (s.addBatch b).2.Local batchId payloadHex := by
  unfold Store.addBatch
  split_ifs with hr
  · obtain ⟨b', hb', hi⟩ := h
    exact ⟨b', Table.mem_insertIgnore.mpr (Or.inl hb'), hi⟩
  · exact h

theorem anchors_addBatch (s : Store) (b : Batch) : (s.addBatch b).2.anchors = s.anchors := by
  unfold addBatch
  split_ifs <;> rfl

theorem commitments_addBatch (s : Store) (b : Batch) :
    (s.addBatch b).2.commitments = s.commitments := by
  unfold addBatch
  split_ifs <;> rfl

theorem bitcoinBlocks_addBatch (s : Store) (b : Batch) :
    (s.addBatch b).2.bitcoinBlocks = s.bitcoinBlocks := by
  unfold addBatch
  split_ifs <;> rfl

theorem Sound.addBatch (hs : s.Sound) (b : Batch) : (s.addBatch b).2.Sound := by
  intro a ha hst
  rw [anchors_addBatch] at ha
  obtain ⟨r, hr, hcf, hl⟩ := hs a ha hst
  exact ⟨r, by rwa [commitments_addBatch], hcf, hl.addBatch b⟩

end Store

omit [Ed25519] in
/-- A peer's reference is stored as confirmed only where the local row already is. -/
theorem localReference_confirmed {v : Json} {existing : Option Anchor}
    (h : (Service.localReference v existing).status = .confirmed) :
    ∃ row, existing = some row ∧ row.status = .confirmed ∧
      (Service.localReference v existing).blockHash = row.blockHash ∧
      (Service.localReference v existing).blockHeight = row.blockHeight := by
  unfold Service.localReference at h ⊢
  cases existing with
  | none => cases h
  | some row =>
    simp only at h ⊢
    split_ifs at h ⊢ with hu
    exact ⟨row, rfl, h, rfl, rfl⟩

theorem Store.Sound.addReference (hs : s.Sound) (v : Json)
    (hrow : ∀ row, s.anchors.find? (v.text "txid", v.nat "vout") = some row →
      row.batchId = v.text "batch_id") :
    (s.addAnchor (Service.localReference v
      (s.anchors.find? (v.text "txid", v.nat "vout")))).2.Sound := by
  apply hs.addAnchor
  intro hst
  obtain ⟨row, hfind, hc, hhash, hheight⟩ := localReference_confirmed hst
  obtain ⟨hm, hp⟩ := Table.find?_eq_some.mp hfind
  obtain ⟨r, hr, hcf, hl⟩ := hs row hm hc
  refine ⟨r, hr, ⟨hst, ?_, ?_, hhash.trans hcf.2.2.2.1, hheight.trans hcf.2.2.2.2⟩, hl⟩
  · exact (Service.localReference_point v _).trans (hp.symm.trans hcf.2.1)
  · exact (Service.localReference_batchId v _).trans ((hrow row hfind).symm.trans hcf.2.2.1)

inductive Operation
  | submitRecord (record : Json) (requireLocalTarget : Bool) (localPolicy : Json → Py Unit)
  | importBatch (batch : Json)
  | importPackage (package : Json)
  | importSnapshot (snapshot : Json)
  | importAnchorReference (anchor : Json)
  | createBatch (network : PyStr) (limit maxPackageBytes : ℤ)
  | createDirectBatch (recordId network : PyStr)
  | anchorBatch (batchId : PyStr) (allowMainnet : Bool)
  | scanBitcoin (startHeight maxBlocks : ℤ)
  | resolveCommitments (peers : List PyStr) (limit : ℤ)

def Operation.run : Operation → Node Unit
  | submitRecord record requireLocalTarget localPolicy => do
    let _ ← Service.submitRecord record requireLocalTarget localPolicy
  | importBatch batch => do let _ ← Service.importBatch batch
  | importPackage package => do let _ ← Service.importPackage package
  | importSnapshot snapshot => do let _ ← Service.importSnapshot snapshot
  | importAnchorReference anchor => do let _ ← Service.importAnchorReference anchor
  | createBatch network limit maxPackageBytes => do
    let _ ← Service.createBatch network limit maxPackageBytes
  | createDirectBatch recordId network => do let _ ← Service.createDirectBatch recordId network
  | anchorBatch batchId allowMainnet => do let _ ← Service.anchorBatch batchId allowMainnet
  | scanBitcoin startHeight maxBlocks => do let _ ← Discovery.scanBitcoin startHeight maxBlocks
  | resolveCommitments peers limit => do let _ ← Discovery.resolveCommitments peers limit

/-- Operations one after another, each on a chain of the family and each returning normally. -/
inductive ServiceRuns (F : Set Chain) : Store → Prop
  | empty : ServiceRuns F .empty
  | step {s s' : Store} {c : Chain} (op : Operation) : ServiceRuns F s → c ∈ F →
      op.run.Exec (environment c.flaky) s (.ok ()) s' → ServiceRuns F s'

/-- What every operation but the scan preserves, call by call. -/
structure Lasting (A : Store → Prop) : Prop where
  record : ∀ s r, A s → A (s.addRecord r)
  batch : ∀ s b, A s → A (s.addBatch b).2
  reference : ∀ s v, A s → (∀ row, s.anchors.find? (v.text "txid", v.nat "vout") = some row →
    row.batchId = v.text "batch_id") →
    A (s.addAnchor (Service.localReference v (s.anchors.find? (v.text "txid", v.nat "vout")))).2
  broadcast : ∀ s a, A s → a.status = .broadcast → A (s.addAnchor a).2
  registered : ∀ s, ∀ r ∈ s.commitments, A s → s.Local r.batchId r.payloadHex →
    A (s.confirm r) ∧ A (s.register r)
  marked : ∀ s p, A s → A (s.markCommitmentResolved p)

theorem Lasting.and {A B : Store → Prop} (hA : Lasting A) (hB : Lasting B) :
    Lasting fun s => A s ∧ B s where
  record s r h := ⟨hA.record s r h.1, hB.record s r h.2⟩
  batch s b h := ⟨hA.batch s b h.1, hB.batch s b h.2⟩
  reference s v h hrow := ⟨hA.reference s v h.1 hrow, hB.reference s v h.2 hrow⟩
  broadcast s a h hst := ⟨hA.broadcast s a h.1 hst, hB.broadcast s a h.2 hst⟩
  registered s r hr h hl :=
    ⟨⟨(hA.registered s r hr h.1 hl).1, (hB.registered s r hr h.2 hl).1⟩,
      (hA.registered s r hr h.1 hl).2, (hB.registered s r hr h.2 hl).2⟩
  marked s p h := ⟨hA.marked s p h.1, hB.marked s p h.2⟩

theorem Operation.preserves {rpcAnswers : Answers} {A : Store → Prop} (hA : Lasting A)
    (op : Operation) (hop : ∀ startHeight maxBlocks, op ≠ .scanBitcoin startHeight maxBlocks) :
    op.run.Preserves (environment rpcAnswers) A := by
  have hunit : ∀ {α : Type} {p : Node α}, p.Preserves (environment rpcAnswers) A →
      (p.bind fun _ => .ret ()).Preserves (environment rpcAnswers) A := fun h =>
    h.bind fun _ => preserves_ret _
  have hreference : ∀ v, (Service.importAnchorReference v).Preserves (environment rpcAnswers) A :=
    fun v => Service.importAnchorReference_preserves fun s hs _ => hA.reference s v hs
  cases op with
  | submitRecord => exact hunit (Service.submitRecord_preserves hA.record _ _ _)
  | importBatch => exact hunit (Service.importBatch_preserves hA.batch _)
  | importPackage => exact hunit (Service.importPackage_preserves hA.record hA.batch _)
  | importSnapshot =>
    exact hunit (Service.importSnapshot_preserves hA.record hA.batch fun v _ => hreference v)
  | importAnchorReference => exact hunit (hreference _)
  | createBatch => exact hunit (Service.createBatch_preserves hA.batch _ _ _)
  | createDirectBatch => exact hunit (Service.createDirectBatch_preserves hA.batch _ _)
  | anchorBatch => exact hunit (Service.anchorBatch_preserves hA.broadcast _ _)
  | scanBitcoin startHeight maxBlocks => exact absurd rfl (hop startHeight maxBlocks)
  | resolveCommitments =>
    exact hunit (Discovery.resolveCommitments_preserves hA.record hA.batch hA.registered hA.marked
      _ _)

theorem lasting_sound : Lasting Store.Sound where
  record _ _ h := h
  batch _ b h := h.addBatch b
  reference _ v h hrow := h.addReference v hrow
  broadcast _ _ h hst := h.addAnchor fun hc => by rw [hst] at hc; cases hc
  registered _ _ hr h hl := ⟨h.confirm hr hl, h.register hr hl⟩
  marked _ p h := h.markCommitmentResolved p

theorem lasting_tables (H : Set (ℤ × PyStr)) (C : Set Core) :
    Lasting fun s => s.hashes = H ∧ s.cores = C := by
  have hanchor : ∀ (s : Store) a, s.hashes = H ∧ s.cores = C →
      (s.addAnchor a).2.hashes = H ∧ (s.addAnchor a).2.cores = C := by
    intro s a h
    obtain ⟨-, hc, hb⟩ := s.addAnchor_frame a
    rw [Store.hashes, Store.cores, hc, hb]
    exact h
  constructor
  · exact fun _ _ h => h
  · intro s b h
    rw [Store.hashes, Store.bitcoinBlocks_addBatch, Store.cores, Store.commitments_addBatch]
    exact h
  · exact fun s v h _ => hanchor s _ h
  · exact fun s a h _ => hanchor s a h
  · intro s r _ h _
    rw [Store.hashes_confirm, Store.cores_confirm, Store.hashes_register, Store.cores_register]
    exact ⟨h, h⟩
  · intro s p h
    rw [Store.cores_markCommitmentResolved]
    exact h

theorem Store.on_of_hashes (hh : s'.hashes = s.hashes) (h : s.On c) : s'.On c := by
  intro row hr
  have hm : (row.height, row.blockHash) ∈ s'.hashes := ⟨row, hr, rfl⟩
  rw [hh] at hm
  obtain ⟨row', hr', he⟩ := hm
  obtain ⟨h₁, h₂⟩ := Prod.mk.inj he
  rw [← h₁, ← h₂]
  exact h row' hr'

theorem Store.Of.congr (h : s.Of c) (hh : s'.hashes = s.hashes) (hc : s'.cores = s.cores) :
    s'.Of c := by
  refine ⟨on_of_hashes hh h.on, fun x hx => ?_, fun x hx => h.commits x (hc ▸ hx)⟩
  rw [hh]
  exact h.settled x (hc ▸ hx)

theorem Store.of_empty (hh : s.hashes = ∅) (hc : s.cores = ∅) (c : Chain) : s.Of c := by
  refine ⟨fun row hr => ?_, fun x hx => ?_, fun x hx => ?_⟩
  · have hm : (row.height, row.blockHash) ∈ s.hashes := ⟨row, hr, rfl⟩
    rw [hh] at hm
    exact absurd hm (Set.notMem_empty _)
  · rw [hc] at hx
    exact absurd hx (Set.notMem_empty _)
  · rw [hc] at hx
    exact absurd hx (Set.notMem_empty _)

/-- After every run the confirmed anchors are accounted for, in a store that is empty of scans or of
a chain of the family. -/
theorem ServiceRuns.sound (hF : Consistent F) (h : ServiceRuns F s) :
    s.Sound ∧ ((s.hashes = ∅ ∧ s.cores = ∅) ∨ ∃ d ∈ F, s.Of d) := by
  induction h with
  | empty =>
    refine ⟨fun a ha => absurd ha Table.not_mem_empty, Or.inl ⟨?_, ?_⟩⟩
    · exact hashes_of_rows rfl
    · exact cores_of_rows rfl
  | @step s s' c op _ hc hx ih =>
    obtain ⟨hsound, hcases⟩ := ih
    by_cases hop : ∃ startHeight maxBlocks, op = .scanBitcoin startHeight maxBlocks
    · obtain ⟨startHeight, maxBlocks, rfl⟩ := hop
      obtain ⟨d, hd, hof⟩ : ∃ d ∈ F, s.Of d := by
        rcases hcases with ⟨hh, hcs⟩ | h
        · exact ⟨c, hc, Store.of_empty hh hcs c⟩
        · exact h
      have hrun := scanBitcoin_of startHeight maxBlocks (Store.keeps_sound_throughout c)
        c.flaky_within (hF d hd c hc) hof hsound
      have hall : (Operation.run (.scanBitcoin startHeight maxBlocks)).Alone (environment c.flaky)
          (fun _ => True) (thenOk (fun _ s' => s'.Of c ∧ s'.Sound) fun _ _ => True) s := by
        simp only [Operation.run, bind_eq, Alone, ensures_bind]
        apply hrun.post
        rintro (e | r) s' h
        · trivial
        · exact h
      obtain ⟨hof', hsound'⟩ := Ensures.exec (fun _ => rfl) hall hx
      exact ⟨hsound', Or.inr ⟨c, hc, hof'⟩⟩
    · push Not at hop
      have hlasting := lasting_sound.and (lasting_tables s.hashes s.cores)
      obtain ⟨hsound', hh, hcs⟩ := (op.preserves hlasting hop).exec ⟨hsound, rfl, rfl⟩ hx
      refine ⟨hsound', hcases.imp (fun h => ?_) fun ⟨d, hd, hof⟩ => ?_⟩
      · exact ⟨hh.trans h.1, hcs.trans h.2⟩
      · exact ⟨d, hd, hof.congr hh hcs⟩

/-- Every confirmed anchor has a commitment row with its point, batch and block, whose payload is
that of the stored batch. -/
theorem confirmed_anchor_has_commitment (hF : Consistent F) (h : ServiceRuns F s) :
    ∀ a ∈ s.anchors, a.status = .confirmed → ∃ r ∈ s.commitments, r.txid = a.txid ∧
      r.vout = a.vout ∧ r.batchId = a.batchId ∧ a.blockHash = some r.blockHash ∧
      a.blockHeight = some r.blockHeight ∧
      ∃ b ∈ s.batches, b.batchId = a.batchId ∧ b.payloadHex = r.payloadHex := by
  intro a ha hst
  obtain ⟨r, hr, ⟨-, hp, hb, hh, hk⟩, batch, hm, hi, hph⟩ := (h.sound hF).1 a ha hst
  obtain ⟨h₁, h₂⟩ := Prod.mk.inj hp
  exact ⟨r, hr, h₁.symm, h₂.symm, hb.symm, hh, hk, batch, hm, hi.trans hb.symm, hph⟩

theorem ServiceRuns.eval (op : Operation) (h : ServiceRuns F s) (hc : c ∈ F)
    (hr : (op.run.eval c.oracle s).1 = .ok ()) : ServiceRuns F (op.run.eval c.oracle s).2 :=
  .step op h hc (hr ▸ exec_eval (H := environment c.flaky)
    (c.obeys_oracle fun _ _ _ => Or.inl rfl) op.run s)

end Runs

section Evaluation

variable [Ed25519]

theorem Operation.eval_submitRecord {c : Chain} {s : Store} {r : Record} {requireLocalTarget : Bool}
    (hnew : s.records.find? r.recordId = none) (htarget : requireLocalTarget = true → r.target = []) :
    (Operation.submitRecord r.body requireLocalTarget Service.noPolicy).run.eval c.oracle s =
      (.ok (), (s.run (.addRecord r)).2) := by
  obtain ⟨body, valid⟩ := r
  simp only [Operation.run, Service.submitRecord]
  split
  · rename_i exc h
    rw [valid] at h
    cases h
  · have hread : c.oracle
        (NodeCall.storage (.record (Record.recordId ⟨body, valid⟩))) s = (.ok none, s) :=
      congrArg (fun x => (Except.ok x, s)) hnew
    have hlocal : ¬(requireLocalTarget = true ∧ Record.target ⟨body, valid⟩ ≠ []) :=
      fun h => h.2 (htarget h.1)
    simp only [Service.noPolicy, rethrow, bind_eq, storage, perform, Prog.ofExcept, ret_bind,
      Prog.bind, Prog.eval, hread, Option.isSome_none, Bool.false_eq_true, if_false, if_neg hlocal]
    rfl

theorem Operation.eval_importBatch {c : Chain} {s s' : Store} {b : Batch}
    (hrecords : ∀ recordId ∈ b.recordIds, (s.records.find? recordId).isSome)
    (hadd : s.addBatch b = (.ok true, s')) :
    (Operation.importBatch b.body).run.eval c.oracle s = (.ok (), s') := by
  obtain ⟨body, valid⟩ := b
  simp only [Operation.run, Service.importBatch]
  split
  · rename_i e h
    rw [valid] at h
    cases h
  · have hfold : ∀ ids : List PyStr, (∀ recordId ∈ ids, (s.records.find? recordId).isSome) →
        (ids.foldlM (fun (n : ℕ) recordId => do
          let r ← storage (.record recordId)
          return if r.isNone then n + 1 else n) 0).eval c.oracle s = (.ok 0, s) := by
      intro ids hids
      induction ids with
      | nil => rfl
      | cons recordId ids ih =>
        obtain ⟨hid, hids⟩ := List.forall_mem_cons.mp hids
        obtain ⟨r, hr⟩ := Option.isSome_iff_exists.mp hid
        have hread : (storage (.record recordId)).eval c.oracle s = (.ok (some r), s) :=
          congrArg (fun x => (Except.ok x, s)) hr
        rw [List.foldlM_cons, bind_eq, eval_bind_ok (eval_bind_ok hread)]
        exact ih hids
    have hstored : (storage (.addBatch ⟨body, valid⟩)).eval c.oracle s = (.ok true, s') := by
      have hcall : c.oracle (NodeCall.storage (.addBatch ⟨body, valid⟩)) s = (.ok true, s') := hadd
      simp only [storage, perform, Prog.eval, hcall, Prog.ofExcept]
    rw [bind_eq, bind_eq, Prog.bind_assoc, eval_bind_ok (hfold _ hrecords)]
    simp only [bind_eq, require, if_true, Prog.ofExcept, ret_bind, Prog.bind_assoc,
      eval_bind_ok hstored]
    rfl

end Evaluation

section Witness

attribute [local instance] conformanceKeys

theorem ServiceRuns.scan {F : Set Chain} {s : Store} {c : Chain} (h : ServiceRuns F s) (hc : c ∈ F)
    (hr : ((Discovery.scanBitcoin 0 500).eval c.oracle s).1.toOption.isSome) :
    ServiceRuns F (rescanned c s) := by
  obtain ⟨r, hx⟩ := exec_eval_ok (H := environment c.flaky)
    (c.obeys_oracle fun _ _ _ => Or.inl rfl) hr
  exact .step (.scanBitcoin 0 500) h hc (exec_bind.mpr (Or.inl ⟨r, _, hx, rfl, rfl⟩))

def recordStore : Store :=
  (Store.empty.run (.addRecord ⟨conformanceRecord, conformanceRecord_valid⟩)).2

theorem submit_conformanceRecord {c : Chain} :
    (Operation.submitRecord conformanceRecord true Service.noPolicy).run.eval c.oracle
      .empty = (.ok (), recordStore) :=
  Operation.eval_submitRecord (r := ⟨conformanceRecord, conformanceRecord_valid⟩) rfl fun _ => rfl

theorem import_conformanceBatch {c : Chain} :
    (Operation.importBatch conformanceBatch).run.eval c.oracle recordStore =
      (.ok (), conformanceStore) :=
  Operation.eval_importBatch (b := storedBatch) (by decide) rfl

/-- The service reaches the store that holds the record of the conformance vector and its batch. -/
theorem serviceRuns_conformanceStore : ServiceRuns {sampleOld} conformanceStore := by
  have h₁ := ServiceRuns.eval _ (.empty (F := {sampleOld})) rfl
    (congrArg Prod.fst submit_conformanceRecord)
  rw [submit_conformanceRecord] at h₁
  have h₂ := ServiceRuns.eval _ h₁ rfl (congrArg Prod.fst import_conformanceBatch)
  rwa [import_conformanceBatch] at h₂

theorem confirmed_anchor_has_commitment_sample :
    (∃ a ∈ (rescanned sampleOld conformanceStore).anchors, a.status = .confirmed) ∧
    ∀ a ∈ (rescanned sampleOld conformanceStore).anchors, a.status = .confirmed →
      ∃ r ∈ (rescanned sampleOld conformanceStore).commitments, r.txid = a.txid ∧
        r.vout = a.vout ∧ r.batchId = a.batchId ∧ a.blockHash = some r.blockHash ∧
        a.blockHeight = some r.blockHeight ∧
        ∃ b ∈ (rescanned sampleOld conformanceStore).batches, b.batchId = a.batchId ∧
          b.payloadHex = r.payloadHex :=
  ⟨by decide +kernel,
    confirmed_anchor_has_commitment (F := {sampleOld}) (by rintro c rfl c' rfl; decide)
      (serviceRuns_conformanceStore.scan rfl (by decide +kernel))⟩

end Witness

section Linked

attribute [local instance] feedKeys

theorem serviceRuns_submit {s : Store} {r : Record} (hs : ServiceRuns {sampleOld} s)
    (hnew : s.records.find? r.recordId = none) :
    ServiceRuns {sampleOld} (s.run (.addRecord r)).2 := by
  have he : (Operation.submitRecord r.body false Service.noPolicy).run.eval sampleOld.oracle s =
      (.ok (), (s.run (.addRecord r)).2) :=
    Operation.eval_submitRecord hnew fun h => absurd h Bool.false_ne_true
  have h := ServiceRuns.eval (.submitRecord r.body false Service.noPolicy) hs rfl
    (congrArg Prod.fst he)
  rwa [he] at h

theorem serviceRuns_linkedStore : ServiceRuns {sampleOld} linkedStore :=
  serviceRuns_submit (serviceRuns_submit (serviceRuns_submit .empty rfl) rfl) rfl

theorem serviceRuns_batchedStore : ServiceRuns {sampleOld} batchedStore := by
  have he : (Operation.importBatch earlyBatch).run.eval sampleOld.oracle linkedStore =
      (.ok (), batchedStore) :=
    Operation.eval_importBatch (b := linkedBatchRow) (by decide +kernel) rfl
  have h := ServiceRuns.eval (.importBatch earlyBatch) serviceRuns_linkedStore rfl
    (congrArg Prod.fst he)
  rwa [he] at h

end Linked

end HistoryAnchor

import HistoryAnchor.Node.Imports
import HistoryAnchor.Protocol.Shapes
import HistoryAnchor.Publication.Proofs
import HistoryAnchor.Publication.Soundness

/-! # Stored batches can be served

Whatever operations have run, a stored batch has its records, so the node can
serve its package, and any other node imports this package.
-/

namespace HistoryAnchor

open Python Effects Prog Tables

section Serving

variable [Ed25519] {α : Type} {rpcAnswers : Answers} {s s' t t' : Store}

/-- What the single calls of the storage preserve every program of the node preserves. -/
theorem preserves_of_storage {I : Store → Prop}
    (h : ∀ (s : Store) ⦃β : Type⦄ (c : StorageCall β), I s → I (s.run c).2) (p : Node α) :
    p.Preserves (environment rpcAnswers) I := by
  apply preserves_of_calls
  intro β c s x s' hs hx
  cases c with
  | storage c =>
    have he : s' = (s.run c).2 := congrArg Prod.snd hx
    rw [he]
    exact h s c hs
  | rpc c => exact hx.2 ▸ hs
  | outside c => exact hx.2 ▸ hs

/-- Operations one after another, with any outcomes. -/
inductive NodeRuns : Store → Prop
  | empty : NodeRuns .empty
  | step {s s' : Store} {r : Py Unit} (rpcAnswers : Answers) (op : Operation) :
      NodeRuns s → op.run.Exec (environment rpcAnswers) s r s' → NodeRuns s'

theorem ServiceRuns.nodeRuns {F : Set Chain} (hs : ServiceRuns F s) : NodeRuns s := by
  induction hs with
  | empty => exact .empty
  | step op _ _ hx ih => exact .step _ op ih hx

theorem NodeRuns.preserves {I : Store → Prop} (hempty : I .empty)
    (h : ∀ (s : Store) ⦃β : Type⦄ (c : StorageCall β), I s → I (s.run c).2) (hs : NodeRuns s) :
    I s := by
  induction hs with
  | empty => exact hempty
  | step rpcAnswers op _ hx ih => exact (preserves_of_storage h op.run).exec ih hx

/-- The environment for storage calls that satisfy `P`. -/
def restricted (rpcAnswers : Answers) (P : ∀ ⦃β : Type⦄, StorageCall β → Prop) :
    Handler NodeCall Exc Store := fun _ call s x s' =>
  environment rpcAnswers call s x s' ∧ ∀ c, call = .storage c → P c

/-- Operations one after another, with any outcomes, whose storage calls satisfy `P`. -/
inductive RestrictedRuns (P : ∀ ⦃β : Type⦄, StorageCall β → Prop) : Store → Prop
  | empty : RestrictedRuns P .empty
  | step {s s' : Store} {r : Py Unit} (rpcAnswers : Answers) (op : Operation) :
      RestrictedRuns P s → op.run.Exec (restricted rpcAnswers P) s r s' → RestrictedRuns P s'

namespace RestrictedRuns

variable {P : ∀ ⦃β : Type⦄, StorageCall β → Prop}

theorem preserves {I : Store → Prop} (hempty : I .empty)
    (h : ∀ (s : Store) ⦃β : Type⦄ (c : StorageCall β), P c → I s → I (s.run c).2)
    (hs : RestrictedRuns P s) : I s := by
  induction hs with
  | empty => exact hempty
  | step rpcAnswers op _ hx ih =>
    refine (preserves_of_calls ?_ op.run).exec ih hx
    rintro β c s x s' hI ⟨hx, hc⟩
    cases c with
    | storage c =>
      have he : s' = (s.run c).2 := congrArg Prod.snd hx
      rw [he]
      exact h s c (hc c rfl) hI
    | rpc c => exact hx.2 ▸ hI
    | outside c => exact hx.2 ▸ hI

theorem eval {op : Operation} (hs : RestrictedRuns P s) (c : Chain)
    (hop : op.run.Calls fun _ call => ∀ c, call = NodeCall.storage c → P c) :
    RestrictedRuns P (op.run.eval c.oracle s).2 := by
  have hx := exec_eval (H := environment c.truthful) (c.obeys_oracle fun _ _ _ => rfl) op.run s
  exact .step _ op hs (hop.exec (fun _ _ _ _ _ hc h => ⟨h, hc⟩) hx)

end RestrictedRuns

namespace Store

theorem records_addBatch (b : Batch) : (s.addBatch b).2.records = s.records := by
  unfold addBatch
  split_ifs <;> rfl

theorem records_addAnchor (a : Anchor) : (s.addAnchor a).2.records = s.records := by
  rcases s.addAnchor_cases a with ⟨h, he⟩ | he
  · rw [he]
    rfl
  · rw [he]

theorem mem_records_run {β : Type} (c : StorageCall β) {row : Record} (h : row ∈ s.records) :
    row ∈ (s.run c).2.records := by
  cases c with
  | addRecord r => exact Table.mem_insertIgnore.mpr (Or.inl h)
  | addBatch b =>
    simp only [run, records_addBatch]
    exact h
  | addAnchor a =>
    simp only [run, records_addAnchor]
    exact h
  | addScannedBlock row =>
    simp only [run, addScannedBlock]
    split_ifs <;> exact h
  | addCommitment c =>
    simp only [run, addCommitment]
    split_ifs <;> exact h
  | _ => exact h

def Closed (s : Store) : Prop := ∀ b ∈ s.batches, ∀ r ∈ b.recordIds, s.Has r

theorem Closed.run (h : s.Closed) {β : Type} (c : StorageCall β) : (s.run c).2.Closed := by
  have hhas : ∀ r, s.Has r → (s.run c).2.Has r := by
    rintro r ⟨row, hrow, hid⟩
    exact ⟨row, mem_records_run c hrow, hid⟩
  rcases run_batches (s := s) c with ⟨hb, -⟩ | ⟨b, hrec, -, he⟩
  · intro b' hb' r hr
    rw [hb] at hb'
    exact hhas r (h b' hb' r hr)
  · intro b' hb' r hr
    apply hhas
    rw [he] at hb'
    rcases Table.mem_insertIgnore.mp hb' with hb' | ⟨rfl, -⟩
    · exact h b' hb' r hr
    · exact hrec r hr

theorem exists_rows {ids : List PyStr} (hids : ∀ r ∈ ids, s.Has r) :
    ∃ rows : List Record, (∀ row ∈ rows, row ∈ s.records) ∧ rows.map Record.recordId = ids := by
  induction ids with
  | nil => exact ⟨[], fun _ h => absurd h List.not_mem_nil, rfl⟩
  | cons i ids ih =>
    obtain ⟨⟨row, hrow, hid⟩, hrest⟩ := List.forall_mem_cons.mp hids
    obtain ⟨rows, hrows, hmap⟩ := ih hrest
    exact ⟨row :: rows, List.forall_mem_cons.mpr ⟨hrow, hrows⟩, by rw [List.map_cons, hid, hmap]⟩

/-- The stored values are objects without repeated keys, as every dictionary is. -/
structure Dicts (s : Store) : Prop where
  records : ∀ row ∈ s.records, row.body.WF
  batches : ∀ b ∈ s.batches, b.body.WF

end Store

theorem NodeRuns.closed (hs : NodeRuns s) : s.Closed :=
  hs.preserves (fun _ hb => absurd hb Table.not_mem_empty) fun _ _ c h => h.run c

namespace Service

theorem recordsByIds_alone {rows : List Record} {Q : Py (List Record) → Store → Prop}
    (hrows : ∀ row ∈ rows, row ∈ s.records) (done : Q (.ok rows) s) :
    (recordsByIds (rows.map Record.recordId)).Alone (environment rpcAnswers) (fun _ => True) Q s
    := by
  induction rows generalizing Q with
  | nil => exact done
  | cons row rows ih =>
    obtain ⟨hrow, hrest⟩ := List.forall_mem_cons.mp hrows
    have hfind : s.records.find? row.recordId = some row := Table.find?_eq_some.mpr ⟨hrow, rfl⟩
    simp only [List.map_cons, recordsByIds, bind_eq, Alone, ensures_bind, storage_ensures,
      forall_eq', Store.run, hfind, thenOk_ok, true_and]
    exact ih hrest done

/-- The package that is made of a stored batch and its stored records. -/
structure Serves (s : Store) (b : Batch) (package : Json) : Prop where
  valid : Packages.validatePackage package = .ok ()
  batch : package.get "batch" = some b.body
  ids : (package.items "records").map (Json.text · "record_id") = b.recordIds
  stored : ∀ r ∈ package.items "records", ∃ row ∈ s.records, row.body = r

theorem packageForBatch_alone {b : Batch} (hclosed : s.Closed) (hdicts : s.Dicts)
    (hb : b ∈ s.batches) : ∃ package, Serves s b package ∧
      (packageForBatch b.batchId).Alone (environment rpcAnswers) (fun _ => True)
        (fun r s' => r = .ok (some package) ∧ s' = s) s := by
  obtain ⟨rows, hrows, hmap⟩ := Store.exists_rows (hclosed b hb)
  have hids : (rows.map Record.body).map (Json.text · "record_id") = b.recordIds := by
    rw [List.map_map]
    exact hmap
  obtain ⟨package, hcreate, hvalid, hbatch, hrecords⟩ :=
    Packages.createPackage_ok b.valid (hdicts.batches b hb)
      (List.forall_mem_map.mpr fun row _ => row.valid)
      (List.forall_mem_map.mpr fun row hrow => hdicts.records row (hrows row hrow)) hids
  have hitems : package.items "records" = rows.map Record.body := by rw [Json.items, hrecords]
  refine ⟨package, ⟨hvalid, hbatch, by rw [hitems, hids], ?_⟩, ?_⟩
  · rw [hitems]
    exact List.forall_mem_map.mpr fun row hrow => ⟨row, hrows row hrow, rfl⟩
  · have hfind : s.batches.find? b.batchId = some b := Table.find?_eq_some.mpr ⟨hb, rfl⟩
    simp only [packageForBatch, bind_eq, Alone, ensures_bind, storage_ensures, forall_eq',
      Store.run, hfind, thenOk_ok, true_and]
    rw [← hmap]
    apply recordsByIds_alone hrows
    have hlen : rows.length = b.recordIds.length := by rw [← hmap, List.length_map]
    simp only [thenOk_ok, hlen, b.facts.count, if_true, hcreate, ensures_bind, ensures_ofExcept,
      pure_eq, ensures_ret, and_self]

end Service

/-- The bytes whose hashes name the stored records of two nodes. -/
def Store.envelopes (s t : Store) : Set Bytes :=
  {m | ∃ row, (row ∈ s.records ∨ row ∈ t.records) ∧
    Codec.canonicalJsonBytes (Records.envelopeForId row.body) = .ok m}

/-- In every state a node serves the package of every stored batch, with the batch and its records
in order, and every other node imports it: it then stores these records and a batch of this
identifier. -/
theorem stored_batch_reimports {b : Batch} (hs : NodeRuns s) (hds : s.Dicts)
    (hdt : t.Dicts) (hsha : Set.InjOn sha256 (s.envelopes t))
    (hacyclic : Acyclic {v | ∃ row ∈ s.records, row.body = v}) (hb : b ∈ s.batches) :
    ∃ package, Service.Serves s b package ∧
      (∀ r s', (Service.packageForBatch b.batchId).Exec (environment rpcAnswers) s r s' →
        r = .ok (some package) ∧ s' = s) ∧
      ∀ r t', (Service.importPackage package).Exec (environment rpcAnswers) t r t' →
        (∃ x, r = .ok x) ∧ (∀ record ∈ package.items "records", ∃ row ∈ t'.records,
          row.recordId = record.text "record_id" ∧ row.body.sortKeys = record.sortKeys) ∧
        ∃ b' ∈ t'.batches, b'.batchId = b.batchId := by
  obtain ⟨package, hserves, hrun⟩ := Service.packageForBatch_alone hs.closed hds hb
  refine ⟨package, hserves, fun r s' hx => Ensures.exec (fun _ => rfl) hrun hx, ?_⟩
  obtain ⟨b', rs, id, hfacts⟩ := Packages.validatePackage_ok hserves.valid
  obtain rfl : b' = b.body := Option.some.inj (hfacts.batch.symm.trans hserves.batch)
  have hitems : package.items "records" = rs := hfacts.items_records
  have hstored := hserves.stored
  rw [hitems] at hstored ⊢
  have hrs : Acyclic {r | r ∈ rs} := by
    obtain ⟨rank, hrank⟩ := hacyclic
    exact ⟨rank, fun r hr => hrank r (hstored r hr)⟩
  have himport : (Service.importPackage package).Alone (environment rpcAnswers) (fun _ => True)
      (fun r t' => (∃ x, r = .ok x) ∧ (∀ record ∈ rs, ∃ row ∈ t'.records,
        row.recordId = record.text "record_id" ∧ row.body.sortKeys = record.sortKeys) ∧
        ∃ b' ∈ t'.batches, b'.batchId = b.batchId) t := by
    apply Service.importPackage_alone hserves.valid hfacts _ fun ⟨r, hr⟩ =>
      absurd hr (not_stuck_of_acyclic hrs r)
    intro _ x u hadds hall h
    refine ⟨⟨x, rfl⟩, fun record hrecord => ?_, ?_⟩
    · obtain ⟨row, hrow, hid⟩ := hall record hrecord
      refine ⟨row, hrow, hid, ?_⟩
      obtain ⟨own, hown, rfl⟩ := hstored record hrecord
      rcases hadds.new row hrow with hold | hnew
      · exact Records.sortKeys_eq_of_recordId hsha (hdt.records row hold) (hds.records own hown)
          row.valid own.valid (fun m hm => ⟨row, Or.inr hold, hm⟩)
          (fun m hm => ⟨own, Or.inl hown, hm⟩) hid
      · -- What was added is a record of the package, and those have distinct identifiers.
        obtain ⟨own', hown', he⟩ := hstored row.body hnew
        have hsame : own'.recordId = own.recordId := by
          rw [Record.recordId, he]
          exact hid
        rw [← he, Table.eq_of_key hown' hown hsame]
    · by_cases hex : ∃ b' ∈ u.batches, b'.batchId = b.batchId
      · obtain ⟨b', hb', hi⟩ := hex
        exact ⟨b', Table.mem_insertIgnore.mpr (Or.inl hb'), hi⟩
      · push Not at hex
        exact ⟨_, Table.mem_insertIgnore.mpr (Or.inr ⟨rfl, hex⟩), rfl⟩
  exact fun r t' hx => Ensures.exec (fun _ => rfl) himport hx

end Serving

section Witness

attribute [local instance] conformanceKeys

theorem conformanceStore_records {row : Record} (h : row ∈ conformanceStore.records) :
    row.body = conformanceRecord := by
  have hrows : conformanceStore.records.rows = [⟨conformanceRecord, conformanceRecord_valid⟩] := rfl
  rw [Table.mem_def, hrows, List.mem_singleton] at h
  rw [h]

theorem conformanceRecord_wf : conformanceRecord.WF := by
  simp only [conformanceRecord, conformanceSource, conformanceEvidence, Json.WF, Json.WFMembers,
    Json.WFList, and_true, true_and]
  decide

theorem conformanceStore_dicts : conformanceStore.Dicts where
  records row hrow := conformanceStore_records hrow ▸ conformanceRecord_wf
  batches b hb := by
    have hrows : conformanceStore.batches.rows = [storedBatch] := rfl
    rw [Table.mem_def, hrows] at hb
    exact conformanceBatch_sealed.wf b (List.mem_singleton.mp hb)

end Witness

section Linked

attribute [local instance] feedKeys

theorem linkedStore_mem {row : Record} (h : row ∈ linkedStore.records) :
    row = harmlessClaim ∨ row = impactNotice ∨ row = restrictionNotice := by
  rw [Table.mem_def, linkedStore_records] at h
  simpa only [List.mem_cons, List.not_mem_nil, or_false] using h

theorem linkedStore_wf {row : Record} (h : row ∈ linkedStore.records) : row.body.WF := by
  rcases linkedStore_mem h with rfl | rfl | rfl <;>
    simp only [harmlessClaim, impactNotice, restrictionNotice, harmlessBody, noticeBody,
      restrictionBody, sampleRecord, Json.WF, Json.WFMembers, Json.WFList, and_true] <;>
    decide

theorem batchedStore_dicts : batchedStore.Dicts where
  records _ hrow := linkedStore_wf hrow
  batches b hb := by
    have hrows : batchedStore.batches.rows = [linkedBatchRow] := rfl
    rw [Table.mem_def, hrows] at hb
    obtain rfl := List.mem_singleton.mp hb
    simp only [linkedBatchRow, earlyBatch, linkedBatch, Json.WF, Json.WFMembers, Json.WFList,
      and_true, true_and]
    decide

theorem batchedStore_acyclic : Acyclic {v | ∃ row ∈ batchedStore.records, row.body = v} := by
  refine ⟨fun recordId => if recordId = harmlessClaim.recordId then 0 else 1, ?_⟩
  rintro _ ⟨row, hrow, rfl⟩ htarget
  rcases linkedStore_mem hrow with rfl | rfl | rfl
  · exact absurd rfl htarget
  · decide +kernel
  · decide +kernel

def claimStore : Store := (Store.empty.run (.addRecord harmlessClaim)).2

theorem claimStore_mem {row : Record} (h : row ∈ claimStore.records) : row = harmlessClaim :=
  List.mem_singleton.mp h

theorem injOn_envelopes_linked : Set.InjOn sha256 (batchedStore.envelopes claimStore) := by
  have hrow : ∀ row : Record, row ∈ batchedStore.records ∨ row ∈ claimStore.records →
      row ∈ [harmlessClaim, impactNotice, restrictionNotice] := by
    rintro row (h | h)
    · exact h
    · exact claimStore_mem h ▸ List.mem_cons_self
  rintro m ⟨row, hr, hm⟩ m' ⟨row', hr', hm'⟩ he
  obtain ⟨n, hn, hid, -⟩ := row.hashed
  obtain ⟨n', hn', hid', -⟩ := row'.hashed
  obtain rfl := Except.ok.inj (hn.symm.trans hm)
  obtain rfl := Except.ok.inj (hn'.symm.trans hm')
  have hrecordId : row.recordId = row'.recordId := by
    rw [Record.recordId, Record.recordId, Json.text, Json.text, hid, hid', he]
  have hnodup : ([harmlessClaim, impactNotice, restrictionNotice].map Record.recordId).Nodup := by
    decide +kernel
  obtain rfl := List.inj_on_of_nodup_map hnodup (hrow row hr) (hrow row' hr') hrecordId
  exact Except.ok.inj (hn.symm.trans hn')

/-- A node with a claim and two notices about it serves their batch to one that has the claim. -/
theorem stored_batch_reimports_sample :
    ∃ package, Service.Serves batchedStore linkedBatchRow package ∧
      (∀ r s', (Service.packageForBatch linkedBatchRow.batchId).Exec
        (environment sampleOld.truthful) batchedStore r s' →
          r = .ok (some package) ∧ s' = batchedStore) ∧
      ∀ r t', (Service.importPackage package).Exec (environment sampleOld.truthful) claimStore r
          t' →
        (∃ x, r = .ok x) ∧ (∀ record ∈ package.items "records", ∃ row ∈ t'.records,
          row.recordId = record.text "record_id" ∧ row.body.sortKeys = record.sortKeys) ∧
        ∃ b' ∈ t'.batches, b'.batchId = linkedBatchRow.batchId :=
  stored_batch_reimports serviceRuns_batchedStore.nodeRuns batchedStore_dicts
    ⟨fun _ h => linkedStore_wf (claimStore_mem h ▸ List.mem_cons_self),
      fun _ h => absurd h Table.not_mem_empty⟩
    injOn_envelopes_linked batchedStore_acyclic List.mem_cons_self

end Linked

end HistoryAnchor

import HistoryAnchor.Node.Storage

/-! # The stores that calls reach

Whatever the service does, its storage goes from the empty store through single
calls. A set of batches is sealed when no two of their manifests collide: while
only such batches are stored, the links of a batch are its listing.
-/

namespace HistoryAnchor

open Python Tables

namespace Batch

theorem facts (b : Batch) : Batches.Facts b.body b.recordIds b.batchId b.payloadHex := by
  obtain ⟨ids, id, payload, h⟩ := Batches.validateBatch_ok b.valid
  have hids : b.recordIds = ids := by
    have hval : ∀ x, Json.strValue (.str x) = x := fun _ => rfl
    simp only [recordIds, Json.items, h.recordIds, List.map_map, Function.comp_def, hval,
      List.map_id']
  have hid : b.batchId = id := by simp only [batchId, Json.text, h.batchId]
  have hpayload : b.payloadHex = payload := by simp only [payloadHex, Json.text, h.payloadHex]
  rw [hids, hid, hpayload]
  exact h

theorem decode (b : Batch) : ∃ p, Bitcoin.decodeAnchorPayload b.payloadHex = .ok p ∧
    p.manifestHash = b.batchId := by
  obtain ⟨p, hp, -, hm⟩ := b.facts.commits
  exact ⟨p, hp, hm⟩

end Batch

/-- JSON objects without repeated keys, no two of whose manifests collide. -/
structure Sealed (B : Set Batch) : Prop where
  wf : ∀ b ∈ B, b.body.WF
  injOn : Set.InjOn sha256 {m | ∃ b ∈ B, Batches.manifestBytes b.body = .ok m}

theorem Sealed.recordIds_eq {B : Set Batch} (h : Sealed B) {b b' : Batch} (hb : b ∈ B)
    (hb' : b' ∈ B) (he : b.batchId = b'.batchId) : b.recordIds = b'.recordIds := by
  obtain ⟨kvs, hk, -⟩ := b.facts.fields
  obtain ⟨lws, hl, -⟩ := b'.facts.fields
  have hwf := h.wf b hb
  have hwf' := h.wf b' hb'
  have hc := b.facts.calculated
  have hc' := b'.facts.calculated
  have hids := b.facts.recordIds
  have hids' := b'.facts.recordIds
  rw [hk] at hwf hc hids
  rw [hl] at hwf' hc' hids'
  rw [he] at hc
  have hget := Batches.get_eq_of_batchId h.injOn hwf.1 hwf'.1 hc hc'
    (fun m hm => ⟨b, hb, hk ▸ hm⟩) (fun m hm => ⟨b', hb', hl ▸ hm⟩)
    (k := "record_ids") (by decide) (by decide)
  rw [show kvs.lookup _ = _ from hids, show lws.lookup _ = _ from hids'] at hget
  have hsort : ∀ ids : List PyStr, Json.sortKeys (.arr (ids.map .str)) = .arr (ids.map .str) := by
    intro ids
    rw [Json.sortKeys, Json.sortKeysList_eq, List.map_map]
    rfl
  rw [Option.map_some, Option.map_some, hsort, hsort, Option.some.injEq, Json.arr.injEq] at hget
  exact List.map_injective_iff.mpr (fun _ _ h => Json.str.inj h) hget

theorem sealed_singleton {b : Batch} (h : b.body.WF) : Sealed {b} where
  wf b' hb := Set.mem_singleton_iff.mp hb ▸ h
  injOn := by
    rintro m ⟨b₁, rfl, hm⟩ m' ⟨b₂, rfl, hm'⟩ -
    exact Except.ok.inj (hm.symm.trans hm')

section Reached

variable [Ed25519]

def StorageCall.Stores (B : Set Batch) {β : Type} : StorageCall β → Prop
  | .addBatch b => b ∈ B
  | _ => True

namespace Store

/-- The stores reached by calls that store only batches of the set. -/
inductive Reached (B : Set Batch) : Store → Prop
  | empty : Reached B .empty
  | call {s : Store} {β : Type} (c : StorageCall β) :
      Reached B s → c.Stores B → Reached B (s.run c).2

def Linked (s : Store) : Prop :=
  ∀ recordId batchId, (∃ l ∈ s.recordBatches, l.recordId = recordId ∧ l.batchId = batchId) ↔
    ∃ b ∈ s.batches, b.batchId = batchId ∧ recordId ∈ b.recordIds

variable {s : Store} {B : Set Batch}

/-- The calls other than `add_batch` leave the batches and their links alone. -/
theorem run_batches {β : Type} (c : StorageCall β) :
    ((s.run c).2.batches = s.batches ∧ (s.run c).2.recordBatches = s.recordBatches) ∨
      ∃ b h, (∀ B, c.Stores B → b ∈ B) ∧ (s.run c).2 = s.insertBatch b h := by
  cases c with
  | addBatch b =>
    simp only [run, addBatch]
    split_ifs with h
    · exact Or.inr ⟨b, h, fun _ hb => hb, rfl⟩
    · exact Or.inl ⟨rfl, rfl⟩
  | addAnchor a =>
    simp only [run, addAnchor]
    split_ifs <;> exact Or.inl ⟨rfl, rfl⟩
  | addScannedBlock row =>
    simp only [run, addScannedBlock]
    split_ifs <;> exact Or.inl ⟨rfl, rfl⟩
  | addCommitment c =>
    simp only [run, addCommitment]
    split_ifs <;> exact Or.inl ⟨rfl, rfl⟩
  | _ => exact Or.inl ⟨rfl, rfl⟩

omit [Ed25519] in
theorem map_recordId_linksOf {b : Batch} : (linksOf b).map RecordBatch.recordId = b.recordIds := by
  rw [linksOf, List.map_map]
  exact List.zipIdx_map_fst 0 b.recordIds

omit [Ed25519] in
theorem exists_mem_linksOf {b : Batch} {recordId : PyStr} (h : recordId ∈ b.recordIds) :
    ∃ l ∈ linksOf b, l.recordId = recordId ∧ l.batchId = b.batchId := by
  obtain ⟨l, hl, rfl⟩ := List.mem_map.mp (map_recordId_linksOf ▸ h)
  exact ⟨l, hl, rfl, (mem_linksOf hl).2⟩

theorem Linked.insertBatch (hs : s.Linked) (hB : Sealed B) (hmem : ∀ b ∈ s.batches, b ∈ B)
    {b : Batch} (hb : b ∈ B) (h : ∀ r ∈ b.recordIds, ∃ row ∈ s.records, row.recordId = r) :
    (s.insertBatch b h).Linked := by
  intro recordId batchId
  constructor
  · rintro ⟨l, hl, rfl, rfl⟩
    rcases Table.mem_or_mem_of_mem_insertAll hl with hl | hl
    · obtain ⟨b', hb', hi, hr⟩ := (hs l.recordId l.batchId).mp ⟨l, hl, rfl, rfl⟩
      exact ⟨b', Table.mem_insertIgnore.mpr (Or.inl hb'), hi, hr⟩
    · obtain ⟨hr, hi⟩ := mem_linksOf hl
      by_cases hex : ∃ b' ∈ s.batches, b'.batchId = b.batchId
      · obtain ⟨b', hb', hi'⟩ := hex
        refine ⟨b', Table.mem_insertIgnore.mpr (Or.inl hb'), hi'.trans hi.symm, ?_⟩
        rwa [hB.recordIds_eq (hmem b' hb') hb hi']
      · push Not at hex
        exact ⟨b, Table.mem_insertIgnore.mpr (Or.inr ⟨rfl, hex⟩), hi.symm, hr⟩
  · rintro ⟨b', hb', rfl, hr⟩
    rcases Table.mem_insertIgnore.mp hb' with hb' | ⟨rfl, -⟩
    · obtain ⟨l, hl, he, hi⟩ := (hs recordId b'.batchId).mpr ⟨b', hb', rfl, hr⟩
      exact ⟨l, Table.mem_insertAll_of_mem hl, he, hi⟩
    · obtain ⟨l, hl, he, hi⟩ := exists_mem_linksOf hr
      obtain ⟨l', hl', hk⟩ := Table.exists_mem_insertAll (t := s.recordBatches) hl
      obtain ⟨he', hi'⟩ := Prod.mk.inj hk
      exact ⟨l', hl', he'.trans he, hi'.trans hi⟩

theorem Reached.linked (h : s.Reached B) (hB : Sealed B) : (∀ b ∈ s.batches, b ∈ B) ∧ s.Linked := by
  induction h with
  | empty =>
    refine ⟨fun b hb => absurd hb Table.not_mem_empty, fun recordId batchId => ?_⟩
    simp only [Store.empty, Table.not_mem_empty, false_and, exists_false]
  | @call s β c h hc ih =>
    obtain ⟨hmem, hl⟩ := ih
    rcases run_batches (s := s) c with ⟨hb, hr⟩ | ⟨b, hrec, hst, he⟩
    · rw [hb, Linked, hr, hb]
      exact ⟨hmem, hl⟩
    · have hbB : b ∈ B := hst B hc
      rw [he]
      refine ⟨fun b' hb' => ?_, hl.insertBatch hB hmem hbB hrec⟩
      rcases Table.mem_insertIgnore.mp hb' with hb' | ⟨rfl, -⟩
      · exact hmem b' hb'
      · exact hbB

end Store

end Reached

section Conformance

attribute [local instance] conformanceKeys

def storedBatch : Batch := ⟨conformanceBatch, conformanceBatch_valid⟩

def conformanceStore : Store :=
  ((Store.empty.run (.addRecord ⟨conformanceRecord, conformanceRecord_valid⟩)).2.run
    (.addBatch storedBatch)).2

theorem conformanceBatch_sealed : Sealed {storedBatch} := by
  apply sealed_singleton
  simp only [storedBatch, conformanceBatch, Json.WF, Json.WFMembers, Json.WFList, and_true,
    true_and]
  decide

theorem conformanceStore_reached : conformanceStore.Reached {storedBatch} :=
  .call _ (.call _ .empty trivial) rfl

end Conformance

section Linked

attribute [local instance] feedKeys

def harmlessClaim : Record := ⟨harmlessBody, harmlessBody_valid⟩

def impactNotice : Record := ⟨noticeBody, noticeBody_valid⟩

def restrictionNotice : Record := ⟨restrictionBody, restrictionBody_valid⟩

def linkedBatchRow : Batch := ⟨earlyBatch, earlyBatch_valid⟩

def linkedStore : Store :=
  (((Store.empty.run (.addRecord harmlessClaim)).2.run (.addRecord impactNotice)).2.run
    (.addRecord restrictionNotice)).2

theorem linkedStore_records :
    linkedStore.records.rows = [harmlessClaim, impactNotice, restrictionNotice] := rfl

theorem linkedStore_reached {B : Set Batch} : linkedStore.Reached B :=
  .call _ (.call _ (.call _ .empty trivial) trivial) trivial

def batchedStore : Store := (linkedStore.run (.addBatch linkedBatchRow)).2

end Linked

end HistoryAnchor

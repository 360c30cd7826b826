import HistoryAnchor.Node.Reached
import HistoryAnchor.Scan.Anchors
import HistoryAnchor.Scan.Exactness

/-! # Publication follows the active chain

On a node whose batches are stored before the first scan every call leaves the
confirmed anchors and the rows with a local batch in step. What the node answers
about a record is then a fact about the scanned blocks: the least height at which
some batch listing the record is committed.
-/

namespace HistoryAnchor

open Python Effects Prog Discovery Tables

section Runs

variable [Ed25519] {B : Set Batch} {F : Set Chain} {start next : ℤ} {s₀ s : Store} {c : Chain}
  {recordId : PyStr}

namespace Store

/-- Confirmed anchors and rows with a local batch are in step, and the batches are as before. -/
structure InStep (s₀ s : Store) : Prop where
  sound : s.Sound
  complete : s.Complete
  batches : s.batches = s₀.batches
  recordBatches : s.recordBatches = s₀.recordBatches

/-- A scan keeps the anchors and the rows in step, if the rows at a point carry its payload. -/
theorem keeps_inStep (c : Chain) (s₀ : Store) : Keeps c ∅ s₀.InStep fun _ => True where
  weaken _ _ := trivial
  rewind s a h := ⟨h.sound.rewind a, h.complete.rewind a, h.batches, h.recordBatches⟩
  put s row h := ⟨h.sound, h.complete, h.batches, h.recordBatches⟩
  upsert _ _ _ _ _ _ _ _ := trivial
  absent s o ctx t hf h honly _ habs := by
    refine ⟨h.sound.upsert_absent ?_ habs, h.complete.upsert_absent habs, h.batches,
      h.recordBatches⟩
    intro x hx hp
    rcases honly x hx hp with hx | rfl
    · exact absurd hx (Set.notMem_empty x)
    · exact ⟨rfl, rfl⟩
  found s o ctx t hf h _ _ hl r hr he := by
    refine ⟨trivial, h.sound.record_found hl hr he, h.complete.record_found hl hr he, ?_, ?_⟩
    · exact (confirm_batches (c := r)).trans h.batches
    · exact (confirm_recordBatches (c := r)).trans h.recordBatches

/-- A height in the scanned blocks of the active chain at which a stored batch listing the record is
committed. -/
def PublishedAt (s : Store) (c : Chain) (recordId : PyStr) (height : ℤ) : Prop :=
  ∃ row ∈ s.bitcoinBlocks, row.height = height ∧ ∃ b, c.at? height = some (row.blockHash, b) ∧
    ∃ o ∈ b.accepted, ∃ batch ∈ s.batches, recordId ∈ batch.recordIds ∧
      o.payloadHex = batch.payloadHex

theorem local_iff_of_decode {p : Bitcoin.AnchorPayload} {payloadHex : PyStr}
    (hd : Bitcoin.decodeAnchorPayload payloadHex = .ok p) :
    s.Local p.manifestHash payloadHex ↔ ∃ b ∈ s.batches, b.payloadHex = payloadHex := by
  constructor
  · rintro ⟨b, hb, -, hp⟩
    exact ⟨b, hb, hp⟩
  · rintro ⟨b, hb, rfl⟩
    obtain ⟨q, hq, hm⟩ := b.decode
    rw [hd] at hq
    exact ⟨b, hb, hm.symm.trans (congrArg _ (Except.ok.inj hq).symm), rfl⟩

theorem mem_confirmedHeights {h : ℤ} : h ∈ s.confirmedHeights recordId ↔
    ∃ l ∈ s.recordBatches, l.recordId = recordId ∧ ∃ a ∈ s.anchors, a.batchId = l.batchId ∧
      a.status = .confirmed ∧ a.blockHeight = some h := by
  simp only [confirmedHeights, List.mem_flatMap]
  refine exists_congr fun l => and_congr_right fun _ => ?_
  by_cases hl : l.recordId = recordId
  · simp only [hl, if_true, List.mem_filterMap, Option.ite_none_right_eq_some, true_and, and_assoc]
    rfl
  · simp [hl]

theorem mem_anchoredRecordIds : recordId ∈ s.anchoredRecordIds ↔
    ∃ l ∈ s.recordBatches, l.recordId = recordId ∧ ∃ a ∈ s.anchors, a.batchId = l.batchId ∧
      a.status = .confirmed := by
  simp only [anchoredRecordIds, List.mem_map, List.mem_filter, List.any_eq_true,
    decide_eq_true_eq, and_assoc]
  constructor
  · rintro ⟨l, hl, ha, rfl⟩
    exact ⟨l, hl, rfl, ha⟩
  · rintro ⟨l, hl, rfl, ha⟩
    exact ⟨l, hl, ha, rfl⟩

theorem anchor_iff_publishedAt (hs : s.Follows c start next ∅) (hstep : s₀.InStep s)
    (hl : s₀.Linked) (h : ℤ) :
    (∃ l ∈ s.recordBatches, l.recordId = recordId ∧ ∃ a ∈ s.anchors, a.batchId = l.batchId ∧
      a.status = .confirmed ∧ a.blockHeight = some h) ↔ s.PublishedAt c recordId h := by
  have hlinked : s.Linked := by
    intro r i
    rw [hstep.recordBatches, hstep.batches]
    exact hl r i
  constructor
  · rintro ⟨l, hlm, hr, a, ha, hi, hc, hh⟩
    obtain ⟨batch, hb, hbi, hrb⟩ := (hlinked recordId l.batchId).mp ⟨l, hlm, hr, rfl⟩
    obtain ⟨r, hrm, hcf, batch', hb', hbi', hbp'⟩ := hstep.sound a ha hc
    have hsame : batch' = batch := Table.eq_of_key hb' hb
      (hbi'.trans (hcf.2.2.1.symm.trans (hi.trans hbi.symm)))
    have hheight : r.blockHeight = h := Option.some.inj (hcf.2.2.2.2.symm.trans hh)
    have hcore : r.core ∈ s.cores := ⟨r, hrm, rfl⟩
    rw [hs.cores, overlay_empty] at hcore
    obtain ⟨⟨b, hat, o, ho, he⟩, h₁, h₂⟩ := hcore
    have hrow : (r.blockHeight, r.blockHash) ∈ s.hashes := by
      rw [hs.hashes]
      exact ⟨h₁, h₂, by rw [Chain.hashAt, show c.at? r.blockHeight = _ from hat]; rfl⟩
    obtain ⟨row, hrow, heq⟩ := hrow
    obtain ⟨hrh, hrx⟩ := Prod.mk.inj heq
    refine ⟨row, hrow, hrh.trans hheight, b, ?_, o, ho, batch, hb, hrb, ?_⟩
    · rw [← hheight, hrx]
      exact hat
    · rw [← hsame, hbp']
      exact (congrArg Core.payloadHex he).symm
  · rintro ⟨row, hrow, rfl, b, hat, o, ho, batch, hb, hrb, hp⟩
    obtain ⟨l, hlm, hr, hli⟩ := (hlinked recordId batch.batchId).mpr ⟨batch, hb, rfl, hrb⟩
    obtain ⟨h₁, h₂, -⟩ := hs.hashAt_of_mem hrow
    have hcore : o.core row.height row.blockHash ∈ s.cores := by
      rw [hs.cores, overlay_empty]
      exact ⟨Chain.commits_of_mem hat ho, h₁, h₂⟩
    obtain ⟨r, hrm, he⟩ := hcore
    have hloc : s.Local o.payload.manifestHash o.payloadHex :=
      (local_iff_of_decode (Output.decode ho)).mpr ⟨batch, hb, hp.symm⟩
    obtain ⟨a, ha, hcf⟩ := hstep.complete r hrm
      (local_of_core_eq (b := ⟨[], row.height, row.blockHash, 0⟩) hloc he)
    obtain ⟨batch', hb', hbi', hbp'⟩ := hloc
    have hsame : batch'.batchId = batch.batchId := by
      obtain ⟨p, hd, hm⟩ := batch.decode
      rw [← hp, Output.decode ho] at hd
      rw [hbi', ← hm, Except.ok.inj hd]
    refine ⟨l, hlm, hr, a, ha, ?_, hcf.1, ?_⟩
    · rw [hli, hcf.2.2.1, ← hsame, hbi']
      exact congrArg Core.batchId he
    · rw [hcf.2.2.2.2]
      exact congrArg _ (congrArg Core.height he)

end Store

/-- After every call the confirmed height of a record is the least height at which the active chain
commits to a stored batch listing it, and the record is anchored exactly when there is one. -/
theorem scans_publication (hB : Sealed B) (hs₀ : s₀.Reached B) (hF : Consistent F) (h₀ : 0 ≤ start)
    (hb : s₀.bitcoinBlocks.rows = []) (hc : s₀.commitments.rows = [])
    (hconf : ∀ a ∈ s₀.anchors, a.status ≠ .confirmed) (h : Scans F start s₀ c s)
    (recordId : PyStr) :
    (∀ height, s.confirmedAnchorHeightForRecord recordId = some height ↔
      IsLeast {k | s.PublishedAt c recordId k} height) ∧
    (s.confirmedAnchorHeightForRecord recordId = none ↔ ∀ k, ¬ s.PublishedAt c recordId k) ∧
    (recordId ∈ s.anchoredRecordIds ↔ ∃ k, s.PublishedAt c recordId k) := by
  have hlinked := (hs₀.linked hB).2
  have hstart : s₀.InStep s₀ := by
    refine ⟨fun a ha hst => absurd hst (hconf a ha), fun r hr => ?_, rfl, rfl⟩
    rw [Table.mem_def, hc] at hr
    exact absurd hr List.not_mem_nil
  obtain ⟨-, hstep, next, hf⟩ := h.follows (fun c _ => Store.keeps_inStep c s₀) hF h₀
    (hashes_of_rows hb) (cores_of_rows hc) hstart
  have hmem : ∀ k, k ∈ s.confirmedHeights recordId ↔ s.PublishedAt c recordId k := fun k =>
    Store.mem_confirmedHeights.trans (Store.anchor_iff_publishedAt hf hstep hlinked k)
  refine ⟨fun height => ?_, ?_, ?_⟩
  · rw [Store.confirmedAnchorHeightForRecord, List.min?_eq_some_iff]
    simp only [IsLeast, lowerBounds, hmem, Set.mem_ofPred_eq]
  · rw [Store.confirmedAnchorHeightForRecord, List.min?_eq_none_iff, List.eq_nil_iff_forall_not_mem]
    simp only [hmem]
  · rw [Store.mem_anchoredRecordIds]
    constructor
    · rintro ⟨l, hl, hr, a, ha, hi, hst⟩
      obtain ⟨r, -, hcf, -⟩ := hstep.sound a ha hst
      exact ⟨r.blockHeight, (Store.anchor_iff_publishedAt hf hstep hlinked _).mp
        ⟨l, hl, hr, a, ha, hi, hst, hcf.2.2.2.2⟩⟩
    · rintro ⟨k, hk⟩
      obtain ⟨l, hl, hr, a, ha, hi, hst, -⟩ :=
        (Store.anchor_iff_publishedAt hf hstep hlinked k).mpr hk
      exact ⟨l, hl, hr, a, ha, hi, hst⟩

end Runs

section Witness

attribute [local instance] conformanceKeys

/-- The record of the sample batch, after the reorganisation. -/
theorem scans_publication_sample :
    (∀ height, (sampleScanned conformanceStore).confirmedAnchorHeightForRecord
        (conformanceRecord.text "record_id") = some height ↔
      IsLeast {k | (sampleScanned conformanceStore).PublishedAt sampleNew
        (conformanceRecord.text "record_id") k} height) ∧
    ((sampleScanned conformanceStore).confirmedAnchorHeightForRecord
        (conformanceRecord.text "record_id") = none ↔
      ∀ k, ¬ (sampleScanned conformanceStore).PublishedAt sampleNew
        (conformanceRecord.text "record_id") k) ∧
    (conformanceRecord.text "record_id" ∈ (sampleScanned conformanceStore).anchoredRecordIds ↔
      ∃ k, (sampleScanned conformanceStore).PublishedAt sampleNew
        (conformanceRecord.text "record_id") k) :=
  scans_publication conformanceBatch_sealed conformanceStore_reached consistent_sample le_rfl rfl
    rfl (by decide +kernel)
    (.more (.one (Or.inl rfl) (.of_eval (by decide +kernel))) (Or.inr rfl)
      (.of_eval (by decide +kernel))) _

end Witness

end HistoryAnchor

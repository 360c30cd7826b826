import HistoryAnchor.Scan.Contents

/-! # Anchors and commitments

An anchor confirms a commitment row when it carries the row's point, batch and
block. A store is sound when every confirmed anchor confirms a row whose batch is
local, and complete when every row whose batch is local is confirmed. Storing a
commitment keeps both, because the anchor is confirmed again exactly when the
batch is local.
-/

namespace HistoryAnchor

open Python Effects Prog Discovery Tables

/-- The anchor is confirmed and carries the row's point, batch and block. -/
def Anchor.Confirms (a : Anchor) (r : Commitment) : Prop :=
  a.status = .confirmed ∧ a.point = r.point ∧ a.batchId = r.batchId ∧
    a.blockHash = some r.blockHash ∧ a.blockHeight = some r.blockHeight

instance (a : Anchor) (r : Commitment) : Decidable (a.Confirms r) :=
  inferInstanceAs (Decidable (_ ∧ _))

theorem Anchor.Confirms.of_core {a : Anchor} {r r' : Commitment} (h : a.Confirms r)
    (he : r.core = r'.core) : a.Confirms r' := by
  obtain ⟨h₁, h₂, h₃, h₄, h₅⟩ := h
  refine ⟨h₁, h₂.trans (congrArg Core.point he), h₃.trans (congrArg Core.batchId he), ?_, ?_⟩
  · rw [h₄, show r.blockHash = r'.blockHash from congrArg Core.blockHash he]
  · rw [h₅, show r.blockHeight = r'.blockHeight from congrArg Core.height he]

theorem confirmedAnchor_confirms (r : Commitment) : (Service.confirmedAnchor r).Confirms r :=
  ⟨rfl, rfl, rfl, rfl, rfl⟩

variable [Ed25519]

namespace Store

def Sound (s : Store) : Prop :=
  ∀ a ∈ s.anchors, a.status = .confirmed →
    ∃ r ∈ s.commitments, a.Confirms r ∧ s.Local r.batchId r.payloadHex

def Complete (s : Store) : Prop :=
  ∀ r ∈ s.commitments, s.Local r.batchId r.payloadHex → ∃ a ∈ s.anchors, a.Confirms r

variable {s : Store} {c r : Commitment} {a : Anchor} {o : Output} {b : BlockContext} {t : ℤ}

theorem local_register {batchId payloadHex : PyStr} :
    (s.register c).Local batchId payloadHex ↔ s.Local batchId payloadHex := by
  simp only [Local, register, markCommitmentResolved, confirm_batches]

/-- A row of the store after `register` has the core of one before. -/
theorem exists_of_mem_register (h : r ∈ (s.register c).commitments) :
    ∃ r₀ ∈ s.commitments, r₀.core = r.core :=
  (Set.ext_iff.mp cores_register r.core).mp ⟨r, h, rfl⟩

theorem local_of_core {r' : Commitment} (he : r.core = r'.core)
    (h : s.Local r.batchId r.payloadHex) : s.Local r'.batchId r'.payloadHex := by
  rwa [← show r.batchId = r'.batchId from congrArg Core.batchId he,
    ← show r.payloadHex = r'.payloadHex from congrArg Core.payloadHex he]

def Carries (s : Store) (o : Output) : Prop :=
  ∀ x ∈ s.cores, x.point = o.point →
    x.payloadHex = o.payloadHex ∧ x.batchId = o.payload.manifestHash

theorem Sound.upsert_absent (hs : s.Sound) (hsame : s.Carries o) {h : (o.row b t).Fits}
    (habs : ¬ s.Local o.payload.manifestHash o.payloadHex) :
    (s.upsertCommitment (o.row b t) h).Sound := by
  intro a ha hc
  obtain ⟨r, hr, hcf, hl⟩ := hs a ha hc
  have hne : r.point ≠ (o.row b t).point := by
    intro hp
    obtain ⟨h₁, h₂⟩ := hsame r.core ⟨r, hr, rfl⟩ hp
    exact habs (h₁ ▸ h₂ ▸ hl)
  exact ⟨r, (mem_upsertCommitment_of_ne hne).mpr hr, hcf, hl⟩

theorem Sound.upsert_same (hs : s.Sound) {h : (o.row b t).Fits}
    (hsame : ∀ x ∈ s.cores, x.point = o.point → x = o.core b.height b.blockHash) :
    (s.upsertCommitment (o.row b t) h).Sound := by
  intro a ha hc
  obtain ⟨r, hr, hcf, hl⟩ := hs a ha hc
  by_cases hp : r.point = (o.row b t).point
  · obtain ⟨r', hr', hp'⟩ := exists_mem_upsertCommitment (s := s) (o.row b t) h
    have he : r.core = r'.core :=
      (hsame r.core ⟨r, hr, rfl⟩ hp).trans (core_of_mem_upsertCommitment hr' hp').symm
    exact ⟨r', hr', hcf.of_core he, local_of_core he hl⟩
  · exact ⟨r, (mem_upsertCommitment_of_ne hp).mpr hr, hcf, hl⟩

/-- Confirming a row replaces what stood at its point, so only the anchors elsewhere must be
accounted for. -/
theorem sound_confirm (hr : r ∈ s.commitments) (hl : s.Local r.batchId r.payloadHex)
    (hs : ∀ a ∈ s.anchors, a.point ≠ r.point → a.status = .confirmed →
      ∃ r' ∈ s.commitments, a.Confirms r' ∧ s.Local r'.batchId r'.payloadHex) :
    (s.confirm r).Sound := by
  intro a ha hc
  have hloc : ∀ i p, (s.confirm r).Local i p ↔ s.Local i p := by
    intro i p
    simp only [Local, confirm_batches]
  rw [confirm_commitments]
  rcases (mem_confirm hl.exists_batch).mp ha with ⟨ha, hp⟩ | rfl
  · obtain ⟨r', hr', hcf, hl'⟩ := hs a ha hp hc
    exact ⟨r', hr', hcf, (hloc _ _).mpr hl'⟩
  · exact ⟨r, hr, confirmedAnchor_confirms r, (hloc _ _).mpr hl⟩

theorem Sound.markCommitmentResolved (hs : s.Sound) (p : Point) :
    (s.markCommitmentResolved p).Sound := by
  intro a ha hc
  obtain ⟨r, hr, hcf, hl⟩ := hs a ha hc
  obtain ⟨r', hr', he⟩ : r.core ∈ (s.markCommitmentResolved p).cores := by
    rw [cores_markCommitmentResolved]
    exact ⟨r, hr, rfl⟩
  exact ⟨r', hr', hcf.of_core he.symm, local_of_core he.symm hl⟩

theorem Sound.confirm (hs : s.Sound) (hr : r ∈ s.commitments)
    (hl : s.Local r.batchId r.payloadHex) : (s.confirm r).Sound :=
  sound_confirm hr hl fun a ha _ hc => hs a ha hc

theorem Sound.register (hs : s.Sound) (hr : r ∈ s.commitments)
    (hl : s.Local r.batchId r.payloadHex) : (s.register r).Sound :=
  (hs.confirm hr hl).markCommitmentResolved _

theorem local_of_core_eq (hl : s.Local o.payload.manifestHash o.payloadHex)
    (he : r.core = o.core b.height b.blockHash) : s.Local r.batchId r.payloadHex := by
  rwa [show r.batchId = _ from congrArg Core.batchId he,
    show r.payloadHex = _ from congrArg Core.payloadHex he]

theorem Sound.record_found (hs : s.Sound) {h : (o.row b t).Fits}
    (hl : s.Local o.payload.manifestHash o.payloadHex)
    (hr : r ∈ (s.upsertCommitment (o.row b t) h).commitments)
    (he : r.core = o.core b.height b.blockHash) :
    ((s.upsertCommitment (o.row b t) h).register r).Sound := by
  refine (sound_confirm hr (local_of_core_eq hl he) ?_).markCommitmentResolved _
  intro a ha hp hc
  obtain ⟨r', hr', hcf, hl'⟩ := hs a ha hc
  have hne : r'.point ≠ (o.row b t).point := by
    rw [← hcf.2.1]
    exact fun hq => hp (hq.trans (congrArg Core.point he).symm)
  exact ⟨r', (mem_upsertCommitment_of_ne hne).mpr hr', hcf, hl'⟩

theorem Complete.upsert_absent (hs : s.Complete) {h : (o.row b t).Fits}
    (habs : ¬ s.Local o.payload.manifestHash o.payloadHex) :
    (s.upsertCommitment (o.row b t) h).Complete := by
  intro r hr hl
  by_cases hp : r.point = (o.row b t).point
  · have he := core_of_mem_upsertCommitment hr hp
    exact absurd (local_of_core he hl) habs
  · exact hs r ((mem_upsertCommitment_of_ne hp).mp hr) hl

theorem Complete.record_found (hs : s.Complete) {h : (o.row b t).Fits}
    (hl : s.Local o.payload.manifestHash o.payloadHex)
    (hr : r ∈ (s.upsertCommitment (o.row b t) h).commitments)
    (he : r.core = o.core b.height b.blockHash) :
    ((s.upsertCommitment (o.row b t) h).register r).Complete := by
  have hb := (local_of_core_eq hl he).exists_batch
  have hmem : ∀ a, a ∈ ((s.upsertCommitment (o.row b t) h).register r).anchors ↔
      (a ∈ s.anchors ∧ a.point ≠ r.point) ∨ a = Service.confirmedAnchor r := fun a =>
    mem_confirm (s := s.upsertCommitment (o.row b t) h) hb
  intro r₁ hr₁ hl₁
  obtain ⟨r', hr', he'⟩ := exists_of_mem_register hr₁
  rw [local_register] at hl₁
  by_cases hp : r'.point = r.point
  · refine ⟨_, (hmem _).mpr (Or.inr rfl), (confirmedAnchor_confirms r).of_core ?_⟩
    rw [← he', Table.eq_of_key hr' hr hp]
  · have hne : r'.point ≠ (o.row b t).point := fun hq =>
      hp (hq.trans (congrArg Core.point he).symm)
    obtain ⟨a, ha, hcf⟩ := hs r' ((mem_upsertCommitment_of_ne hne).mp hr')
      (local_of_core he'.symm hl₁)
    exact ⟨a, (hmem a).mpr (Or.inl ⟨ha, hcf.2.1 ▸ hp⟩), hcf.of_core he'⟩

theorem Sound.rewind (hs : s.Sound) (h : ℤ) : (s.rewindBitcoinScan h).Sound := by
  intro a ha hc
  obtain ⟨a₀, ha₀, rfl⟩ := mem_anchors_rewindBitcoinScan.mp ha
  split_ifs at hc ⊢ with hgone
  · cases hc
  obtain ⟨r, hr, hcf, hl⟩ := hs a₀ ha₀ hc
  refine ⟨r, mem_rewindBitcoinScan.mpr ⟨hr, ?_⟩, hcf, hl⟩
  by_contra hh
  exact hgone ⟨r, hr, not_le.mp hh, hcf.2.1.symm⟩

theorem Complete.rewind (hs : s.Complete) (h : ℤ) : (s.rewindBitcoinScan h).Complete := by
  intro r hr hl
  obtain ⟨hr, hh⟩ := mem_rewindBitcoinScan.mp hr
  obtain ⟨a, ha, hcf⟩ := hs r hr hl
  refine ⟨a, mem_anchors_rewindBitcoinScan.mpr ⟨a, ha, ?_⟩, hcf⟩
  rw [if_neg]
  rintro ⟨r', hr', hh', hp⟩
  rw [Table.eq_of_key hr' hr (hp.trans hcf.2.1)] at hh'
  exact absurd hh (not_le.mpr hh')

end Store

end HistoryAnchor

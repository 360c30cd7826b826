import HistoryAnchor.Scan.Rules
import Mathlib.Data.Set.Insert

/-! # What a scan has stored

The stored blocks and commitments as sets: each operation of the storage changes
them in one way. A store follows a chain when its blocks are those of an interval
of heights and its commitments are those of these blocks, laid over what an
earlier scan has left behind.
-/

namespace HistoryAnchor

open Python Effects Prog Discovery Tables

def Chain.hashes (c : Chain) (start next : ℤ) : Set (ℤ × PyStr) :=
  {x | start ≤ x.1 ∧ x.1 < next ∧ c.hashAt x.1 = some x.2}

def Chain.scanned (c : Chain) (start next : ℤ) : Set Core :=
  {x | c.Commits x ∧ start ≤ x.height ∧ x.height < next}

/-- What is in `A`, and what is in `L` at a point where nothing is in `A`. -/
def overlay (A L : Set Core) : Set Core := A ∪ {x ∈ L | ∀ y ∈ A, y.point ≠ x.point}

theorem overlay_empty (A : Set Core) : overlay A ∅ = A := by
  simp [overlay]

theorem empty_overlay (L : Set Core) : overlay ∅ L = L := by
  simp [overlay]

theorem overlay_insert {A L : Set Core} {x : Core} (h : ∀ y ∈ A, y.point = x.point → y = x) :
    insert x {y ∈ overlay A L | y.point ≠ x.point} = overlay (insert x A) L := by
  ext y
  simp only [overlay, Set.mem_insert_iff, Set.mem_union, Set.mem_ofPred_eq]
  constructor
  · rintro (rfl | ⟨hA | ⟨hL, hy⟩, hne⟩)
    · exact Or.inl (Or.inl rfl)
    · exact Or.inl (Or.inr hA)
    · refine Or.inr ⟨hL, ?_⟩
      rintro z (rfl | hz)
      · exact fun he => hne he.symm
      · exact hy z hz
  · rintro ((rfl | hA) | ⟨hL, hy⟩)
    · exact Or.inl rfl
    · by_cases he : y.point = x.point
      · exact Or.inl (h y hA he)
      · exact Or.inr ⟨Or.inl hA, he⟩
    · exact Or.inr ⟨Or.inr ⟨hL, fun z hz => hy z (Or.inr hz)⟩,
        fun he => hy x (Or.inl rfl) he.symm⟩

variable [Ed25519]

def Store.cores (s : Store) : Set Core := {x | ∃ r ∈ s.commitments, r.core = x}

def Store.hashes (s : Store) : Set (ℤ × PyStr) :=
  {x | ∃ row ∈ s.bitcoinBlocks, (row.height, row.blockHash) = x}

namespace Store

variable {s : Store} {c r : Commitment} {a : Anchor} {row : BlockRow}

theorem cores_upsertCommitment {h : c.Fits} :
    (s.upsertCommitment c h).cores = insert c.core {x ∈ s.cores | x.point ≠ c.point} := by
  ext x
  simp only [cores, Set.mem_ofPred_eq, Set.mem_insert_iff]
  constructor
  · rintro ⟨r, hr, rfl⟩
    by_cases hp : r.point = c.point
    · exact Or.inl (core_of_mem_upsertCommitment hr hp)
    · exact Or.inr ⟨⟨r, (mem_upsertCommitment_of_ne hp).mp hr, rfl⟩, hp⟩
  · rintro (rfl | ⟨⟨r, hr, rfl⟩, hp⟩)
    · obtain ⟨r, hr, hp⟩ := exists_mem_upsertCommitment (s := s) c h
      exact ⟨r, hr, core_of_mem_upsertCommitment hr hp⟩
    · exact ⟨r, (mem_upsertCommitment_of_ne hp).mpr hr, rfl⟩

theorem mem_markCommitmentResolved {p : Point} :
    r ∈ (s.markCommitmentResolved p).commitments ↔
      ∃ r₀ ∈ s.commitments, r = if r₀.point = p then r₀.resolve else r₀ := by
  refine (@Table.mem_updateWhere _ _ _ s.commitments _ Commitment.resolve (fun _ => rfl) r).trans ?_
  simp only [decide_eq_true_eq]

theorem cores_markCommitmentResolved {p : Point} : (s.markCommitmentResolved p).cores = s.cores := by
  ext x
  simp only [cores, mem_markCommitmentResolved, Set.mem_ofPred_eq]
  constructor
  · rintro ⟨_, ⟨r, hr, rfl⟩, rfl⟩
    refine ⟨r, hr, ?_⟩
    split_ifs <;> rfl
  · rintro ⟨r, hr, rfl⟩
    refine ⟨_, ⟨r, hr, rfl⟩, ?_⟩
    split_ifs <;> rfl

theorem mem_rewindBitcoinScan {h : ℤ} :
    r ∈ (s.rewindBitcoinScan h).commitments ↔ r ∈ s.commitments ∧ r.blockHeight ≤ h := by
  simp [rewindBitcoinScan]

theorem cores_rewindBitcoinScan {h : ℤ} :
    (s.rewindBitcoinScan h).cores = {x ∈ s.cores | x.height ≤ h} := by
  ext x
  simp only [cores, mem_rewindBitcoinScan, Set.mem_ofPred_eq]
  constructor
  · rintro ⟨r, ⟨hr, hh⟩, rfl⟩
    exact ⟨⟨r, hr, rfl⟩, hh⟩
  · rintro ⟨⟨r, hr, rfl⟩, hh⟩
    exact ⟨r, ⟨hr, hh⟩, rfl⟩

theorem hashes_rewindBitcoinScan {h : ℤ} :
    (s.rewindBitcoinScan h).hashes = {x ∈ s.hashes | x.1 ≤ h} := by
  ext x
  simp only [hashes, rewindBitcoinScan, Table.mem_deleteWhere, decide_eq_false_iff_not, not_lt,
    Set.mem_ofPred_eq]
  constructor
  · rintro ⟨r, ⟨hr, hh⟩, rfl⟩
    exact ⟨⟨r, hr, rfl⟩, hh⟩
  · rintro ⟨⟨r, hr, rfl⟩, hh⟩
    exact ⟨r, ⟨hr, hh⟩, rfl⟩

theorem hashes_putBlock :
    (s.putBlock row).hashes = insert (row.height, row.blockHash)
      {x ∈ s.hashes | x.2 ≠ row.blockHash ∧ x.1 ≠ row.height} := by
  ext x
  simp only [hashes, putBlock, Table.mem_insertReplace, decide_eq_false_iff_not,
    Set.mem_ofPred_eq, Set.mem_insert_iff]
  constructor
  · rintro ⟨r, ⟨hr, h₁, h₂⟩ | rfl, rfl⟩
    · exact Or.inr ⟨⟨r, hr, rfl⟩, h₁, h₂⟩
    · exact Or.inl rfl
  · rintro (rfl | ⟨⟨r, hr, rfl⟩, h₁, h₂⟩)
    · exact ⟨row, Or.inr rfl, rfl⟩
    · exact ⟨r, Or.inl ⟨hr, h₁, h₂⟩, rfl⟩

theorem confirm_commitments : (s.confirm c).commitments = s.commitments := by
  unfold confirm
  split_ifs <;> rfl

theorem confirm_bitcoinBlocks : (s.confirm c).bitcoinBlocks = s.bitcoinBlocks := by
  unfold confirm
  split_ifs <;> rfl

theorem confirm_batches : (s.confirm c).batches = s.batches := by
  unfold confirm
  split_ifs <;> rfl

theorem confirm_recordBatches : (s.confirm c).recordBatches = s.recordBatches := by
  unfold confirm
  split_ifs <;> rfl

theorem cores_confirm : (s.confirm c).cores = s.cores := by
  rw [cores, confirm_commitments, cores]

theorem cores_register : (s.register c).cores = s.cores := by
  rw [register, cores_markCommitmentResolved, cores_confirm]

theorem hashes_confirm : (s.confirm c).hashes = s.hashes := by
  rw [hashes, confirm_bitcoinBlocks, hashes]

theorem hashes_register : (s.register c).hashes = s.hashes := hashes_confirm

theorem mem_confirm (h : ∃ b ∈ s.batches, b.batchId = c.batchId) :
    a ∈ (s.confirm c).anchors ↔
      (a ∈ s.anchors ∧ a.point ≠ c.point) ∨ a = Service.confirmedAnchor c := by
  rw [confirm, dif_pos h]
  have hmem := @Table.mem_upsert _ _ _ _ s.anchors (fun _ new => new) (fun _ _ => rfl)
    (Service.confirmedAnchor c) a
  refine hmem.trans ?_
  constructor
  · rintro (⟨ha, hp⟩ | ⟨_, _, _, rfl⟩ | ⟨rfl, -⟩)
    · exact Or.inl ⟨ha, hp⟩
    · exact Or.inr rfl
    · exact Or.inr rfl
  · rintro (⟨ha, hp⟩ | rfl)
    · exact Or.inl ⟨ha, hp⟩
    · by_cases hex : ∃ a ∈ s.anchors, a.point = c.point
      · obtain ⟨a, ha, hp⟩ := hex
        exact Or.inr (Or.inl ⟨a, ha, hp, rfl⟩)
      · push Not at hex
        exact Or.inr (Or.inr ⟨rfl, hex⟩)

theorem mem_anchors_rewindBitcoinScan {h : ℤ} :
    a ∈ (s.rewindBitcoinScan h).anchors ↔ ∃ a₀ ∈ s.anchors,
      a = if ∃ r ∈ s.commitments, h < r.blockHeight ∧ r.point = a₀.point
        then a₀.reorganise else a₀ := by
  refine (@Table.mem_updateWhere _ _ _ s.anchors _ Anchor.reorganise (fun _ => rfl) a).trans ?_
  simp only [List.any_eq_true, decide_eq_true_eq, Table.mem_def]

theorem mem_of_latestScannedBlock (h : s.latestScannedBlock = some row) :
    row ∈ s.bitcoinBlocks ∧ ∀ r ∈ s.bitcoinBlocks, r.height ≤ row.height :=
  ⟨List.argmax_mem h, fun _ hr => List.le_of_mem_argmax hr h⟩

theorem hashes_eq_empty (h : s.latestScannedBlock = none) : s.hashes = ∅ := by
  have hrows : s.bitcoinBlocks.rows = [] := List.argmax_eq_none.mp h
  ext x
  simp [hashes, Table.mem_def, hrows]

end Store

end HistoryAnchor

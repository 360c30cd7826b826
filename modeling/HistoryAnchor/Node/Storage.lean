import HistoryAnchor.Effects.Program
import HistoryAnchor.Protocol.Archive
import HistoryAnchor.Tables.Keyed
import Mathlib.Data.List.MinMax

/-! # The node's storage

The tables of the database with their keys; the foreign keys that the schema
declares are part of a store. Each method of the source is one call, answered
from the store in one step.
-/

namespace HistoryAnchor

open Python Tables

variable [Ed25519]

/-- The integers that SQLite stores. -/
def sqliteInt (n : ℤ) : Prop := -2 ^ 63 ≤ n ∧ n < 2 ^ 63

omit [Ed25519] in
instance (n : ℤ) : Decidable (sqliteInt n) := inferInstanceAs (Decidable (_ ∧ _))

/-- A record as it is stored: only validated bodies get there. -/
structure Record where
  body : Json
  valid : Records.validateRecord body true = .ok ()

namespace Record

def recordId (r : Record) : PyStr := r.body.text "record_id"
def kind (r : Record) : PyStr := r.body.text "kind"
def authorId (r : Record) : PyStr := r.body.text "author_id"

/-- `target_record_id`; a claim has none. -/
def target (r : Record) : PyStr := r.body.text "target_record_id"

end Record

omit [Ed25519] in
/-- A batch as it is stored: only validated bodies get there. -/
structure Batch where
  body : Json
  valid : Batches.validateBatch body = .ok ()

namespace Batch

def batchId (b : Batch) : PyStr := b.body.text "batch_id"
def payloadHex (b : Batch) : PyStr := b.body.text "payload_hex"
def network (b : Batch) : PyStr := b.body.text "network"
def recordIds (b : Batch) : List PyStr := (b.body.items "record_ids").map Json.strValue

end Batch

/-- A row of `record_batches`. -/
structure RecordBatch where
  recordId : PyStr
  batchId : PyStr
  position : ℕ
  deriving DecidableEq

inductive AnchorStatus
  | unverified | broadcast | confirmed | reorganised | invalid
  deriving DecidableEq, Repr

abbrev Point := PyStr × ℕ

instance lawfulBEq_point : LawfulBEq Point := inferInstance

structure Anchor where
  txid : PyStr
  vout : ℕ
  batchId : PyStr
  network : PyStr
  status : AnchorStatus
  anchoredAt : ℤ
  blockHash : Option PyStr
  blockHeight : Option ℤ
  deriving DecidableEq

def AnchorStatus.text : AnchorStatus → PyStr
  | unverified => "unverified"
  | broadcast => "broadcast"
  | confirmed => "confirmed"
  | reorganised => "reorganised"
  | invalid => "invalid"

def Anchor.json (a : Anchor) : Json :=
  .obj [("txid", .str a.txid), ("vout", .int a.vout), ("batch_id", .str a.batchId),
    ("network", .str a.network), ("status", .str a.status.text), ("anchored_at", .int a.anchoredAt),
    ("block_hash", (a.blockHash.map Json.str).getD .null),
    ("block_height", (a.blockHeight.map Json.int).getD .null)]

def Anchor.point (a : Anchor) : Point := (a.txid, a.vout)

def Anchor.reorganise (a : Anchor) : Anchor := { a with status := .reorganised }

structure BlockRow where
  height : ℤ
  blockHash : PyStr
  blockTime : ℤ
  deriving DecidableEq

structure Commitment where
  txid : PyStr
  vout : ℕ
  batchId : PyStr
  payloadHex : PyStr
  network : PyStr
  blockHeight : ℤ
  blockHash : PyStr
  blockTime : ℤ
  status : PyStr
  discoveredAt : ℤ
  resolved : Bool
  deriving DecidableEq

namespace Commitment

def point (c : Commitment) : Point := (c.txid, c.vout)

def resolve (c : Commitment) : Commitment := { c with resolved := true }

def Fits (c : Commitment) : Prop :=
  sqliteInt c.vout ∧ sqliteInt c.blockHeight ∧ sqliteInt c.blockTime ∧ sqliteInt c.discoveredAt

instance (c : Commitment) : Decidable c.Fits := inferInstanceAs (Decidable (_ ∧ _))

end Commitment

structure Store where
  records : Table Record.recordId
  batches : Table Batch.batchId
  recordBatches : Table fun l : RecordBatch => (l.recordId, l.batchId)
  anchors : Table Anchor.point
  bitcoinBlocks : Table BlockRow.height
  commitments : Table Commitment.point
  record_fk : ∀ l ∈ recordBatches, ∃ r ∈ records, r.recordId = l.recordId
  batch_fk : ∀ l ∈ recordBatches, ∃ b ∈ batches, b.batchId = l.batchId
  anchor_fk : ∀ a ∈ anchors, ∃ b ∈ batches, b.batchId = a.batchId
  commitment_fits : ∀ c ∈ commitments, c.Fits

namespace Store

def empty : Store where
  records := .empty
  batches := .empty
  recordBatches := .empty
  anchors := .empty
  bitcoinBlocks := .empty
  commitments := .empty
  record_fk := fun _ h => absurd h Table.not_mem_empty
  batch_fk := fun _ h => absurd h Table.not_mem_empty
  anchor_fk := fun _ h => absurd h Table.not_mem_empty
  commitment_fits := fun _ h => absurd h Table.not_mem_empty

def overflow : Exc := ⟨.overflowError, "Python int too large to convert to SQLite INTEGER"⟩
def foreignKey : Exc := ⟨.integrityError, "FOREIGN KEY constraint failed"⟩

/-- `LIMIT n`; a negative number is no limit. -/
def limited {α : Type} (n : ℤ) (xs : List α) : List α := if n < 0 then xs else xs.take n.toNat

/-- The rows of a query with `LIMIT n`, unless the number is too large to be bound. -/
def query {α : Type} (n : ℤ) (rows : List α) : Py (List α) :=
  if sqliteInt n then .ok rows else .error overflow

omit [Ed25519] in
theorem query_ok {α : Type} {n : ℤ} (h : sqliteInt n) (rows : List α) : query n rows = .ok rows :=
  if_pos h

def addRecord (s : Store) (r : Record) : Store where
  __ := s
  records := s.records.insertIgnore r
  record_fk := fun l hl =>
    let ⟨r', hr, hk⟩ := s.record_fk l hl
    ⟨r', Table.mem_insertIgnore.mpr (Or.inl hr), hk⟩

def linksOf (b : Batch) : List RecordBatch :=
  b.recordIds.zipIdx.map fun (r, i) => ⟨r, b.batchId, i⟩

omit [Ed25519] in
theorem mem_linksOf {b : Batch} {l : RecordBatch} (h : l ∈ linksOf b) :
    l.recordId ∈ b.recordIds ∧ l.batchId = b.batchId := by
  obtain ⟨⟨r, i⟩, hr, rfl⟩ := List.mem_map.mp h
  exact ⟨List.fst_mem_of_mem_zipIdx hr, rfl⟩

def insertBatch (s : Store) (b : Batch)
    (h : ∀ r ∈ b.recordIds, ∃ row ∈ s.records, row.recordId = r) : Store where
  __ := s
  batches := s.batches.insertIgnore b
  recordBatches := s.recordBatches.insertAll (linksOf b)
  record_fk := fun l hl => by
    rcases Table.mem_or_mem_of_mem_insertAll hl with hl | hl
    · exact s.record_fk l hl
    · exact h _ (mem_linksOf hl).1
  batch_fk := fun l hl => by
    rcases Table.mem_or_mem_of_mem_insertAll hl with hl | hl
    · obtain ⟨b', hb, hk⟩ := s.batch_fk l hl
      exact ⟨b', Table.mem_insertIgnore.mpr (Or.inl hb), hk⟩
    · rw [(mem_linksOf hl).2]
      by_cases hex : ∃ b' ∈ s.batches, b'.batchId = b.batchId
      · obtain ⟨b', hb, hk⟩ := hex
        exact ⟨b', Table.mem_insertIgnore.mpr (Or.inl hb), hk⟩
      · push Not at hex
        exact ⟨b, Table.mem_insertIgnore.mpr (Or.inr ⟨rfl, hex⟩), rfl⟩
  anchor_fk := fun a ha => by
    obtain ⟨b', hb, hk⟩ := s.anchor_fk a ha
    exact ⟨b', Table.mem_insertIgnore.mpr (Or.inl hb), hk⟩

instance (s : Store) (b : Batch) :
    Decidable (∀ r ∈ b.recordIds, ∃ row ∈ s.records, row.recordId = r) :=
  inferInstanceAs (Decidable (∀ r ∈ b.recordIds, ∃ row ∈ s.records.rows, row.recordId = r))

def addBatch (s : Store) (b : Batch) : Py Bool × Store :=
  if h : ∀ r ∈ b.recordIds, ∃ row ∈ s.records, row.recordId = r then
    (.ok (s.batches.find? b.batchId).isNone, s.insertBatch b h)
  else (.error foreignKey, s)

def unbatchedRecords (s : Store) (limit : ℤ) : List Record :=
  limited limit (s.records.rows.filter fun r => s.recordBatches.rows.all (·.recordId ≠ r.recordId))

def upsertAnchor (s : Store) (a : Anchor) (h : ∃ b ∈ s.batches, b.batchId = a.batchId) :
    Store where
  __ := s
  anchors := s.anchors.upsert (fun _ new => new) (fun _ _ => rfl) a
  anchor_fk := fun a' ha => by
    rcases Table.mem_upsert.mp ha with ⟨ha, -⟩ | ⟨_, _, _, rfl⟩ | ⟨rfl, -⟩
    · exact s.anchor_fk a' ha
    · exact h
    · exact h

instance (s : Store) (batchId : PyStr) : Decidable (∃ b ∈ s.batches, b.batchId = batchId) :=
  inferInstanceAs (Decidable (∃ b ∈ s.batches.rows, b.batchId = batchId))

def addAnchor (s : Store) (a : Anchor) : Py Bool × Store :=
  if sqliteInt a.vout ∧ sqliteInt a.anchoredAt ∧ sqliteInt (a.blockHeight.getD 0) then
    if h : ∃ b ∈ s.batches, b.batchId = a.batchId then
      (.ok (s.anchors.find? a.point).isNone, s.upsertAnchor a h)
    else (.error foreignKey, s)
  else (.error overflow, s)

def anchor (s : Store) (p : Point) : Py (Option Anchor) :=
  if sqliteInt p.2 then .ok (s.anchors.find? p) else .error overflow

theorem anchor_cases (s : Store) (p : Point) :
    s.anchor p = .ok (s.anchors.find? p) ∨ s.anchor p = .error overflow := by
  by_cases h : sqliteInt p.2
  · exact Or.inl (if_pos h)
  · exact Or.inr (if_neg h)

theorem addAnchor_cases (s : Store) (a : Anchor) :
    (∃ h, (s.addAnchor a).2 = s.upsertAnchor a h) ∨ (s.addAnchor a).2 = s := by
  by_cases hfit : sqliteInt a.vout ∧ sqliteInt a.anchoredAt ∧ sqliteInt (a.blockHeight.getD 0)
  · by_cases h : ∃ b ∈ s.batches, b.batchId = a.batchId
    · rw [addAnchor, if_pos hfit, dif_pos h]
      exact Or.inl ⟨h, rfl⟩
    · rw [addAnchor, if_pos hfit, dif_neg h]
      exact Or.inr rfl
  · rw [addAnchor, if_neg hfit]
    exact Or.inr rfl

/-- `anchored_record_ids`. -/
def anchoredRecordIds (s : Store) : List PyStr :=
  (s.recordBatches.rows.filter fun l =>
    s.anchors.rows.any fun a => a.batchId = l.batchId ∧ a.status = .confirmed).map (·.recordId)

def confirmedHeights (s : Store) (recordId : PyStr) : List ℤ :=
  s.recordBatches.rows.flatMap fun l =>
    if l.recordId = recordId then
      s.anchors.rows.filterMap fun a =>
        if a.batchId = l.batchId ∧ a.status = .confirmed then a.blockHeight else none
    else []

def confirmedAnchorHeightForRecord (s : Store) (recordId : PyStr) : Option ℤ :=
  (s.confirmedHeights recordId).min?

/-- `INSERT OR REPLACE`: both the height and the hash are unique. -/
def putBlock (s : Store) (row : BlockRow) : Store where
  __ := s
  bitcoinBlocks := s.bitcoinBlocks.insertReplace (fun b => b.blockHash = row.blockHash) row

def addScannedBlock (s : Store) (row : BlockRow) : Py Unit × Store :=
  if sqliteInt row.height ∧ sqliteInt row.blockTime then (.ok (), s.putBlock row)
  else (.error overflow, s)

def latestScannedBlock (s : Store) : Option BlockRow :=
  @List.argmax _ _ instLatticeInt.toSemilatticeInf.toPartialOrder.toPreorder Int.decLt
    BlockRow.height s.bitcoinBlocks.rows

/-- What a conflicting row keeps: when it was discovered and whether it was resolved. -/
def mergeCommitment (old new : Commitment) : Commitment :=
  { new with discoveredAt := old.discoveredAt, resolved := old.resolved }

def upsertCommitment (s : Store) (c : Commitment) (h : c.Fits) : Store where
  __ := s
  commitments := s.commitments.upsert mergeCommitment (fun _ _ => rfl) c
  commitment_fits := fun r hr => by
    rcases Table.mem_upsert.mp hr with ⟨hr, -⟩ | ⟨old, ho, -, rfl⟩ | ⟨rfl, -⟩
    · exact s.commitment_fits r hr
    · exact ⟨h.1, h.2.1, h.2.2.1, (s.commitment_fits old ho).2.2.2⟩
    · exact h

def addCommitment (s : Store) (c : Commitment) : Py Bool × Store :=
  if h : c.Fits then (.ok (s.commitments.find? c.point).isNone, s.upsertCommitment c h)
  else (.error overflow, s)

/-- The rows of a query on `commitments`, oldest first. -/
def selectCommitments (s : Store) (unresolvedOnly : Bool) (batchId : Option PyStr) (limit : ℤ) :
    List Commitment :=
  limited limit (s.commitments.rows.filter fun c =>
    (!unresolvedOnly || !c.resolved) && batchId.all (c.batchId = ·))

def markCommitmentResolved (s : Store) (p : Point) : Store where
  __ := s
  commitments := s.commitments.updateWhere (fun c => c.point = p)
    Commitment.resolve fun _ => rfl
  commitment_fits := fun r hr => by
    obtain ⟨c, hc, rfl⟩ := Table.mem_updateWhere.mp hr
    have hf := s.commitment_fits c hc
    split_ifs <;> exact hf

/-- Forget every block and commitment above a height; the anchors at the points of the forgotten
commitments become `reorganised`. -/
def rewindBitcoinScan (s : Store) (ancestor : ℤ) : Store where
  __ := s
  anchors := s.anchors.updateWhere
    (fun a => s.commitments.rows.any fun c => ancestor < c.blockHeight ∧ c.point = a.point)
    Anchor.reorganise fun _ => rfl
  commitments := s.commitments.deleteWhere fun c => ancestor < c.blockHeight
  bitcoinBlocks := s.bitcoinBlocks.deleteWhere fun b => ancestor < b.height
  anchor_fk := fun a ha => by
    obtain ⟨a', ha', rfl⟩ := Table.mem_updateWhere.mp ha
    obtain ⟨b, hb, hk⟩ := s.anchor_fk a' ha'
    refine ⟨b, hb, ?_⟩
    split_ifs <;> exact hk
  commitment_fits := fun c hc => s.commitment_fits c (Table.mem_deleteWhere.mp hc).1

end Store

/-- The methods of `Storage` that the service calls. -/
inductive StorageCall : Type → Type
  | record (recordId : PyStr) : StorageCall (Option Record)
  | addRecord (r : Record) : StorageCall Bool
  | records (limit : ℤ) : StorageCall (List Record)
  | unbatchedRecords (limit : ℤ) : StorageCall (List Record)
  | batch (batchId : PyStr) : StorageCall (Option Batch)
  | batches (limit : ℤ) : StorageCall (List Batch)
  | addBatch (b : Batch) : StorageCall Bool
  | anchor (p : Point) : StorageCall (Option Anchor)
  | anchors : StorageCall (List Anchor)
  | addAnchor (a : Anchor) : StorageCall Bool
  | scannedBlock (height : ℤ) : StorageCall (Option BlockRow)
  | latestScannedBlock : StorageCall (Option BlockRow)
  | addScannedBlock (row : BlockRow) : StorageCall Unit
  | addCommitment (c : Commitment) : StorageCall Bool
  | commitments (unresolvedOnly : Bool) (batchId : Option PyStr) (limit : ℤ) :
      StorageCall (List Commitment)
  | markCommitmentResolved (p : Point) : StorageCall Unit
  | rewindBitcoinScan (ancestor : ℤ) : StorageCall Unit

/-- The answer to a call and the store after it; batches come newest first. -/
def Store.run (s : Store) {β : Type} : StorageCall β → Py β × Store
  | .record i => (.ok (s.records.find? i), s)
  | .addRecord r => (.ok (s.records.find? r.recordId).isNone, s.addRecord r)
  | .records n => (query n (limited n s.records.rows), s)
  | .unbatchedRecords n => (query n (s.unbatchedRecords n), s)
  | .batch i => (.ok (s.batches.find? i), s)
  | .batches n => (query n (limited n s.batches.rows.reverse), s)
  | .addBatch b => s.addBatch b
  | .anchors => (.ok s.anchors.rows, s)
  | .anchor p => (s.anchor p, s)
  | .addAnchor a => s.addAnchor a
  | .scannedBlock h => (.ok (s.bitcoinBlocks.find? h), s)
  | .latestScannedBlock => (.ok s.latestScannedBlock, s)
  | .addScannedBlock row => s.addScannedBlock row
  | .addCommitment c => s.addCommitment c
  | .commitments u b n => (query n (s.selectCommitments u b n), s)
  | .markCommitmentResolved p => (.ok (), s.markCommitmentResolved p)
  | .rewindBitcoinScan a => (.ok (), s.rewindBitcoinScan a)

end HistoryAnchor

import HistoryAnchor.Effects.Transactions
import HistoryAnchor.Protocol.Codec
import HistoryAnchor.Python.Numbers

/-! # The schema and its migration

Opening the storage creates what is missing, moves the anchors of an older database to a
table that tells outputs apart, and then records the version. The move takes several
statements that commit one by one.
-/

namespace HistoryAnchor

open Python Effects Prog Connection

namespace Migration

/-- A row of `anchors` in versions 2 and 3. -/
structure OldAnchor where
  ingestSeq : ℤ
  txid : PyStr
  batchId : PyStr
  network : PyStr
  status : PyStr
  anchoredAt : ℤ
  blockHash : Option PyStr
  blockHeight : Option ℤ
  deriving DecidableEq

/-- A row of `anchors` in version 4. -/
structure NewAnchor extends OldAnchor where
  vout : ℤ
  deriving DecidableEq

structure OldAnchors where
  rows : List OldAnchor
  seqs_nodup : (rows.map OldAnchor.ingestSeq).Nodup
  txids_nodup : (rows.map OldAnchor.txid).Nodup

def NewAnchor.point (a : NewAnchor) : PyStr × ℤ := (a.txid, a.vout)

structure NewAnchors where
  rows : List NewAnchor
  seqs_nodup : (rows.map fun a => a.ingestSeq).Nodup
  points_nodup : (rows.map NewAnchor.point).Nodup

def NewAnchors.empty : NewAnchors := ⟨[], List.nodup_nil, List.nodup_nil⟩

inductive Anchors
  | withoutVout (t : OldAnchors)
  | withVout (t : NewAnchors)

/-- What the schema and its migration read and write of a database. -/
structure Database where
  /-- The columns of the tables other than the two of anchors. -/
  tables : PyStr → Option (List PyStr)
  /-- The indexes, each with its table. -/
  indexes : List (PyStr × PyStr)
  metadata : List (PyStr × PyStr)
  batches : List PyStr
  anchors : Option Anchors
  anchorsPreV4 : Option OldAnchors

def oldColumns : List PyStr :=
  ["ingest_seq", "txid", "batch_id", "network", "status", "anchored_at", "block_hash",
   "block_height"]

def newColumns : List PyStr :=
  ["ingest_seq", "txid", "vout", "batch_id", "network", "status", "anchored_at", "block_hash",
   "block_height"]

def Anchors.columns : Anchors → List PyStr
  | withoutVout _ => oldColumns
  | withVout _ => newColumns

def anchorsName : PyStr := "anchors"
def anchorsPreV4Name : PyStr := "anchors_pre_v4"

namespace Database

def columns (db : Database) (table : PyStr) : Option (List PyStr) :=
  if table = anchorsName then db.anchors.map Anchors.columns
  else if table = anchorsPreV4Name then db.anchorsPreV4.map fun _ => oldColumns
  else db.tables table

/-- A new table; the only table of anchors that is ever created is that of version 4. -/
def addTable (db : Database) (table : PyStr) (columns : List PyStr) : Database :=
  if table = anchorsName then { db with anchors := some (.withVout .empty) }
  else { db with tables := Function.update db.tables table (some columns) }

end Database

inductive Statement : Type → Type
  | pragma (text : PyStr) : Statement Unit
  | createTable (ifNotExists : Bool) (table : PyStr) (columns : List PyStr) : Statement Unit
  | createIndex (ifNotExists : Bool) (index table : PyStr) (columns : List PyStr) : Statement Unit
  | dropIndexIfExists (index : PyStr) : Statement Unit
  /-- `ALTER TABLE anchors RENAME TO anchors_pre_v4`. -/
  | renameAnchors : Statement Unit
  /-- `INSERT INTO anchors(...) SELECT ..., txid, 0, ... FROM anchors_pre_v4`. -/
  | copyAnchors : Statement Unit
  /-- `DROP TABLE anchors_pre_v4`. -/
  | dropAnchorsPreV4 : Statement Unit
  | tableInfo (table : PyStr) : Statement (List PyStr)
  | selectMetadata (key : PyStr) : Statement (Option PyStr)
  | insertMetadata (key value : PyStr) : Statement Unit
  | updateMetadata (key value : PyStr) : Statement Unit
  | commit : Statement Unit
  | rollback : Statement Unit

def OldAnchor.atZero (a : OldAnchor) : NewAnchor := { a with vout := 0 }

def createTable (db : Database) (ifNotExists : Bool) (table : PyStr) (columns : List PyStr) :
    Py Database :=
  match db.columns table with
  | some _ =>
    if ifNotExists then .ok db
    else raise .operationalError (ascii "table " ++ table ++ ascii " already exists")
  | none => .ok (db.addTable table columns)

def createIndex (db : Database) (ifNotExists : Bool) (index table : PyStr) (columns : List PyStr) :
    Py Database :=
  match db.columns table with
  | none => raise .operationalError (ascii "no such table: main." ++ table)
  | some available =>
    if index ∈ db.indexes.map Prod.fst then
      if ifNotExists then .ok db
      else raise .operationalError (ascii "index " ++ index ++ ascii " already exists")
    else if columns.all fun c => decide (c ∈ available) then
      .ok { db with indexes := db.indexes ++ [(index, table)] }
    else raise .operationalError (ascii "no such column in " ++ table)

def dropIndexIfExists (db : Database) (index : PyStr) : Database :=
  { db with indexes := db.indexes.filter fun i => i.1 ≠ index }

def renameAnchors (db : Database) : Py Database :=
  match db.anchors, db.anchorsPreV4 with
  | some (.withoutVout t), none =>
    .ok { db with
      anchors := none
      anchorsPreV4 := some t
      indexes := db.indexes.map fun i => if i.2 = anchorsName then (i.1, anchorsPreV4Name) else i }
  | none, _ => raise .operationalError "no such table: anchors"
  | _, _ => raise .operationalError
      "there is already another table or index with this name: anchors_pre_v4"

/-- All rows are copied or none: keys must stay unique, and every batch must be stored. -/
def copyAnchors (db : Database) : Py Database :=
  match db.anchors, db.anchorsPreV4 with
  | some (.withVout t), some old =>
    let rows := t.rows ++ old.rows.map OldAnchor.atZero
    if hseqs : (rows.map fun a => a.ingestSeq).Nodup then
      if hpoints : (rows.map NewAnchor.point).Nodup then
        if old.rows.all fun a => decide (a.batchId ∈ db.batches) then
          .ok { db with anchors := some (.withVout ⟨rows, hseqs, hpoints⟩) }
        else raise .integrityError "FOREIGN KEY constraint failed"
      else raise .integrityError "UNIQUE constraint failed: anchors.txid, anchors.vout"
    else raise .integrityError "UNIQUE constraint failed: anchors.ingest_seq"
  | some (.withoutVout _), some _ =>
    raise .operationalError "table anchors has no column named vout"
  | none, _ => raise .operationalError "no such table: anchors"
  | _, none => raise .operationalError "no such table: anchors_pre_v4"

def dropAnchorsPreV4 (db : Database) : Py Database :=
  match db.anchorsPreV4 with
  | some _ => .ok { db with
      anchorsPreV4 := none
      indexes := db.indexes.filter fun i => i.2 ≠ anchorsPreV4Name }
  | none => raise .operationalError "no such table: anchors_pre_v4"

def insertMetadata (db : Database) (key value : PyStr) : Py Database :=
  if key ∈ db.metadata.map Prod.fst then
    raise .integrityError "UNIQUE constraint failed: metadata.key"
  else .ok { db with metadata := db.metadata ++ [(key, value)] }

def updateMetadata (db : Database) (key value : PyStr) : Database :=
  { db with metadata := db.metadata.map fun row => if row.1 = key then (key, value) else row }

namespace Statement

def answer : {β : Type} → Statement β → Database → Py (β × Database)
  | _, pragma _, db => .ok ((), db)
  | _, createTable ifNotExists table columns, db =>
    ((), ·) <$> Migration.createTable db ifNotExists table columns
  | _, createIndex ifNotExists index table columns, db =>
    ((), ·) <$> Migration.createIndex db ifNotExists index table columns
  | _, dropIndexIfExists index, db => .ok ((), Migration.dropIndexIfExists db index)
  | _, renameAnchors, db => ((), ·) <$> Migration.renameAnchors db
  | _, copyAnchors, db => ((), ·) <$> Migration.copyAnchors db
  | _, dropAnchorsPreV4, db => ((), ·) <$> Migration.dropAnchorsPreV4 db
  | _, tableInfo table, db => .ok ((db.columns table).getD [], db)
  | _, selectMetadata key, db => .ok (db.metadata.lookup key, db)
  | _, insertMetadata key value, db => ((), ·) <$> Migration.insertMetadata db key value
  | _, updateMetadata key value, db => .ok ((), Migration.updateMetadata db key value)
  | _, commit, db => .ok ((), db)
  | _, rollback, db => .ok ((), db)

/-- Rows of `metadata` change in a transaction; scripts and definitions run outside one. -/
def mode : {β : Type} → Statement β → Mode
  | _, insertMetadata _ _ | _, updateMetadata _ _ => .change
  | _, commit => .commit
  | _, rollback => .rollback
  | _, _ => .plain

end Statement

def engine : Engine Statement Exc Database := ⟨Statement.mode, Statement.answer⟩

structure TableSpec where
  table : PyStr
  columns : List PyStr
  indexes : List (PyStr × List PyStr)

def pragmas : List PyStr :=
  ["journal_mode=WAL", "synchronous=FULL", "foreign_keys=ON", "busy_timeout=10000",
   "wal_autocheckpoint=1000"]

def schema : List TableSpec :=
  [⟨"metadata", ["key", "value"], []⟩,
   ⟨"records",
    ["ingest_seq", "record_id", "kind", "created_at", "target_record_id", "author_id", "body"],
    [("idx_records_target", ["target_record_id"])]⟩,
   ⟨"batches",
    ["ingest_seq", "batch_id", "created_at", "network", "merkle_root", "payload_hex", "body"], []⟩,
   ⟨"record_batches", ["record_id", "batch_id", "position"],
    [("idx_record_batches_batch", ["batch_id", "position"])]⟩,
   ⟨"anchors", newColumns, [("idx_anchors_batch", ["batch_id"])]⟩,
   ⟨"bitcoin_blocks", ["height", "block_hash", "block_time"], []⟩,
   ⟨"commitments",
    ["ingest_seq", "txid", "vout", "batch_id", "payload_hex", "network", "block_height",
     "block_hash", "block_time", "status", "discovered_at", "resolved"],
    [("idx_commitments_batch", ["batch_id"]), ("idx_commitments_height", ["block_height"]),
     ("idx_commitments_resolved", ["resolved", "ingest_seq"])]⟩]

def TableSpec.statements (spec : TableSpec) : List (Statement Unit) :=
  .createTable true spec.table spec.columns ::
    spec.indexes.map fun (index, columns) => .createIndex true index spec.table columns

def createMissing : List (Statement Unit) :=
  pragmas.map .pragma ++ schema.flatMap TableSpec.statements

def replaceAnchors : List (Statement Unit) :=
  [.createTable false anchorsName newColumns, .copyAnchors, .dropAnchorsPreV4,
   .createIndex false "idx_anchors_batch" anchorsName ["batch_id"]]

def schemaVersion : ℤ := 4

/-- `executescript`, which commits an open transaction first. -/
def executescript (l : List (Statement Unit)) : List (Statement Unit) := .commit :: l

def checkVersion (value : PyStr) : Py ℤ :=
  match int value with
  | none => raise .valueError "invalid literal for int() with base 10"
  | some version =>
    if version ∈ [2, 3, schemaVersion] then .ok version
    else raise .runtimeError (ascii "database schema version " ++ decimalInt version ++
      ascii " is not supported by this build (expected 2, 3, or 4)")

def readVersion : Prog Statement Exc ℤ := do
  match ← perform (.selectMetadata "schema_version") with
  | none =>
    perform (.insertMetadata "schema_version" (decimalInt schemaVersion))
    return schemaVersion
  | some value => ofExcept (checkVersion value)

def migrateAnchors : Prog Statement Exc Unit := do
  let columns ← perform (.tableInfo anchorsName)
  if ascii "vout" ∉ columns then
    perform (.dropIndexIfExists "idx_anchors_batch")
    perform .renameAnchors
    script (executescript replaceAnchors)

def writeVersion (version : ℤ) : Prog Statement Exc Unit :=
  if version ≠ schemaVersion then
    perform (.updateMetadata "schema_version" (decimalInt schemaVersion))
  else return ()

def writeNode (uuid : PyStr) : Prog Statement Exc Unit := do
  match ← perform (.selectMetadata "node_instance_id") with
  | none => perform (.insertMetadata "node_instance_id" uuid)
  | some _ => return ()

def upgrade (uuid : PyStr) : Prog Statement Exc Unit := do
  let version ← readVersion
  migrateAnchors
  writeVersion version
  writeNode uuid

/-- `_create_schema`; `uuid` is the fresh `uuid.uuid4().hex`. -/
def createSchema (uuid : PyStr) : Prog Statement Exc Unit :=
  transaction .commit .rollback do
    script (executescript createMissing)
    upgrade uuid

/-- The database that a process leaves behind that is killed after `k` statements. -/
def killedAfter (k : ℕ) (uuid : PyStr) (db : Database) : Database :=
  (evalFor engine.oracle k (createSchema uuid, opened db)).2.committed

/-- Opening the database: the outcome, and what is committed after it. -/
def reopen (uuid : PyStr) (db : Database) : Py Unit × Database :=
  let x := (createSchema uuid).eval engine.oracle (opened db)
  (x.1, x.2.committed)

end Migration

end HistoryAnchor

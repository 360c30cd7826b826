import HistoryAnchor.Node.Migration

/-! # Interrupted upgrades

A process may be killed after any statement of the upgrade and the database be opened
again. The anchors survive unless that happens after the old table was renamed and
before its rows are copied.
-/

namespace HistoryAnchor

open Python Effects Prog Connection Engine

namespace Migration

/-- The tables that exist have the columns that the indexes need. -/
def Indexable (db : Database) : Prop :=
  ∀ spec ∈ schema, ∀ available, db.columns spec.table = some available →
    ∀ index ∈ spec.indexes, ∀ c ∈ index.2, c ∈ available

structure Openable (db : Database) : Prop where
  indexable : Indexable db
  version : ∃ value ∈ ([ascii "2", ascii "3", ascii "4"] : List PyStr),
    db.metadata.lookup (ascii "schema_version") = some value

/-- A database of version 2 or 3 with its anchors. -/
structure Legacy (db : Database) (t : OldAnchors) : Prop where
  indexable : Indexable db
  version : ∃ value ∈ ([ascii "2", ascii "3"] : List PyStr),
    db.metadata.lookup (ascii "schema_version") = some value
  anchors : db.anchors = some (.withoutVout t)
  anchorsPreV4 : db.anchorsPreV4 = none

/-- Opened normally, and the table of anchors holds one row for each old one. -/
def Migrated (t : OldAnchors) (r : Py Unit × Database) : Prop :=
  r.1 = .ok () ∧ ∃ t', r.2.anchors = some (.withVout t') ∧ t'.rows = t.rows.map OldAnchor.atZero

theorem checkVersion_ok {value : PyStr}
    (h : value ∈ ([ascii "2", ascii "3", ascii "4"] : List PyStr)) :
    ∃ version, checkVersion value = .ok version := by
  simp only [List.mem_cons, List.not_mem_nil, or_false] at h
  rcases h with rfl | rfl | rfl
  · exact ⟨2, by decide⟩
  · exact ⟨3, by decide⟩
  · exact ⟨4, by decide⟩

theorem columns_addTable {db : Database} {table : PyStr} {columns : List PyStr}
    (h : table ≠ anchorsPreV4Name) (t : PyStr) :
    (db.addTable table columns).columns t =
      if t = table then some (if table = anchorsName then newColumns else columns)
      else db.columns t := by
  unfold Database.columns Database.addTable
  by_cases ha : table = anchorsName
  · simp only [ha, if_true]
    split_ifs <;> rfl
  · simp only [ha, if_false]
    by_cases ht : t = table
    · subst ht
      simp only [ha, h, if_false, if_true, Function.update_self]
    · simp only [ht, if_false, Function.update_of_ne ht]

theorem mem_createMissing {s : Statement Unit} (h : s ∈ executescript createMissing) :
    s = .commit ∨ (∃ text, s = .pragma text) ∨
      ∃ spec ∈ schema, s = .createTable true spec.table spec.columns ∨
        ∃ index ∈ spec.indexes, s = .createIndex true index.1 spec.table index.2 := by
  rw [executescript, createMissing, List.mem_cons, List.mem_append, List.mem_map,
    List.mem_flatMap] at h
  rcases h with rfl | ⟨text, -, rfl⟩ | ⟨spec, hspec, h⟩
  · exact Or.inl rfl
  · exact Or.inr (Or.inl ⟨text, rfl⟩)
  · right; right
    rw [TableSpec.statements, List.mem_cons, List.mem_map] at h
    rcases h with rfl | ⟨index, hindex, rfl⟩
    · exact ⟨spec, hspec, Or.inl rfl⟩
    · exact ⟨spec, hspec, Or.inr ⟨index, hindex, rfl⟩⟩

theorem table_ne {spec : TableSpec} (h : spec ∈ schema) : spec.table ≠ anchorsPreV4Name := by
  have hall : schema.all fun spec => decide (spec.table ≠ anchorsPreV4Name) := by decide
  exact of_decide_eq_true (List.all_eq_true.mp hall spec h)

theorem spec_columns {spec spec' : TableSpec} (h : spec ∈ schema) (h' : spec' ∈ schema)
    (ht : spec'.table = spec.table) : ∀ index ∈ spec'.indexes, ∀ c ∈ index.2,
      c ∈ if spec.table = anchorsName then newColumns else spec.columns := by
  have hall : schema.all fun spec => schema.all fun spec' => !decide (spec'.table = spec.table) ||
      spec'.indexes.all fun index => index.2.all fun c =>
        decide (c ∈ if spec.table = anchorsName then newColumns else spec.columns) := by
    decide +kernel
  have hspec := List.all_eq_true.mp (List.all_eq_true.mp hall spec h) spec' h'
  rw [decide_eq_true ht, Bool.not_true, Bool.false_or] at hspec
  intro index hindex c hc
  have hindex' := List.all_eq_true.mp hspec index hindex
  exact of_decide_eq_true (List.all_eq_true.mp hindex' c hc)

structure Kept (db d : Database) : Prop where
  metadata : d.metadata = db.metadata
  batches : d.batches = db.batches
  anchorsPreV4 : d.anchorsPreV4 = db.anchorsPreV4
  anchors : d.anchors = db.anchors ∨
    db.anchors = none ∧ d.anchors = some (.withVout .empty)
  indexable : Indexable db → Indexable d

theorem Kept.refl (db : Database) : Kept db db := ⟨rfl, rfl, rfl, Or.inl rfl, id⟩

theorem Kept.trans {a b c : Database} (h : Kept a b) (h' : Kept b c) : Kept a c where
  metadata := h'.metadata.trans h.metadata
  batches := h'.batches.trans h.batches
  anchorsPreV4 := h'.anchorsPreV4.trans h.anchorsPreV4
  anchors := by
    rcases h'.anchors with he | ⟨hn, he⟩
    · rcases h.anchors with ha | ⟨hn, ha⟩
      · exact Or.inl (he.trans ha)
      · exact Or.inr ⟨hn, he.trans ha⟩
    · rcases h.anchors with ha | ⟨_, ha⟩
      · exact Or.inr ⟨ha ▸ hn, he⟩
      · rw [ha] at hn
        cases hn
  indexable := h'.indexable ∘ h.indexable

theorem Kept.openable {db d : Database} (h : Kept db d) (ho : Openable db) : Openable d where
  indexable := h.indexable ho.indexable
  version := by rw [h.metadata]; exact ho.version

theorem createTable_kept {db d : Database} {spec : TableSpec} (hspec : spec ∈ schema)
    (h : createTable db true spec.table spec.columns = .ok d) : Kept db d := by
  unfold createTable at h
  cases hc : db.columns spec.table with
  | some available =>
    rw [hc] at h
    cases h
    exact .refl db
  | none =>
    rw [hc] at h
    cases h
    constructor
    · unfold Database.addTable; split_ifs <;> rfl
    · unfold Database.addTable; split_ifs <;> rfl
    · unfold Database.addTable; split_ifs <;> rfl
    · unfold Database.columns at hc
      unfold Database.addTable
      split_ifs with ha
      · rw [if_pos ha, Option.map_eq_none_iff] at hc
        exact Or.inr ⟨hc, rfl⟩
      · exact Or.inl rfl
    · intro hi spec' hspec' available ha
      rw [columns_addTable (table_ne hspec)] at ha
      by_cases ht : spec'.table = spec.table
      · rw [if_pos ht] at ha
        cases ha
        exact spec_columns hspec hspec' ht
      · rw [if_neg ht] at ha
        exact hi spec' hspec' available ha

theorem createIndex_kept {db d : Database} {ifNotExists : Bool} {index table : PyStr}
    {columns : List PyStr} (h : createIndex db ifNotExists index table columns = .ok d) :
    Kept db d := by
  unfold createIndex at h
  cases hc : db.columns table with
  | none =>
    rw [hc] at h
    cases h
  | some available =>
    rw [hc] at h
    simp only at h
    split_ifs at h
    · cases h; exact .refl db
    · cases h
    · cases h; exact ⟨rfl, rfl, rfl, Or.inl rfl, id⟩
    · cases h

theorem map_ok {α : Type} {x : Py α} {d : α} :
    (((), ·) <$> x : Py (Unit × α)) = .ok ((), d) ↔ x = .ok d := by
  cases x with
  | error e => exact ⟨nofun, nofun⟩
  | ok a => exact ⟨fun h => by cases h; rfl, fun h => by cases h; rfl⟩

theorem createMissing_kept {l : List (Statement Unit)} (hl : l ⊆ executescript createMissing)
    {db d : Database} (h : engine.run l db = .ok d) : Kept db d := by
  apply run_induction Kept.refl (fun _ _ _ => Kept.trans) _ h
  intro s hs db d h
  rcases mem_createMissing (hl hs) with rfl | ⟨text, rfl⟩ | ⟨spec, hspec, rfl | ⟨index, -, rfl⟩⟩
  · cases h; exact .refl db
  · cases h; exact .refl db
  · exact createTable_kept hspec (map_ok.mp h)
  · exact createIndex_kept (map_ok.mp h)

/-! The first script ends normally. -/

theorem run_indexes {table : PyStr} {available : List PyStr} {indexes : List (PyStr × List PyStr)}
    (hi : ∀ index ∈ indexes, ∀ c ∈ index.2, c ∈ available) {db : Database}
    (hc : db.columns table = some available) :
    ∃ d, engine.run (indexes.map fun index => .createIndex true index.1 table index.2) db = .ok d ∧
      ∀ t, d.columns t = db.columns t := by
  induction indexes generalizing db with
  | nil => exact ⟨db, rfl, fun _ => rfl⟩
  | cons index indexes ih =>
    have hall : index.2.all (fun c => decide (c ∈ available)) = true :=
      List.all_eq_true.mpr fun c hc => decide_eq_true (hi index List.mem_cons_self c hc)
    obtain ⟨d₁, hd, hcol⟩ : ∃ d₁, createIndex db true index.1 table index.2 = .ok d₁ ∧
        ∀ t, d₁.columns t = db.columns t := by
      unfold createIndex
      rw [hc]
      simp only [hall, if_true]
      split_ifs
      · exact ⟨db, rfl, fun _ => rfl⟩
      · exact ⟨_, rfl, fun _ => rfl⟩
    obtain ⟨d, hrun, hcol'⟩ := ih (fun i hi' => hi i (List.mem_cons_of_mem index hi'))
      ((hcol table).trans hc)
    exact ⟨d, run_cons_ok.mpr ⟨d₁, map_ok.mpr hd, hrun⟩, fun t => (hcol' t).trans (hcol t)⟩

theorem run_statements {spec : TableSpec} (hspec : spec ∈ schema) {db : Database}
    (hi : Indexable db) : ∃ d, engine.run spec.statements db = .ok d ∧ Indexable d := by
  obtain ⟨d₁, hd, available, hc⟩ :
      ∃ d₁, createTable db true spec.table spec.columns = .ok d₁ ∧
        ∃ available, d₁.columns spec.table = some available := by
    unfold createTable
    cases hc : db.columns spec.table with
    | some available => exact ⟨db, rfl, available, hc⟩
    | none =>
      refine ⟨_, rfl, if spec.table = anchorsName then newColumns else spec.columns, ?_⟩
      rw [columns_addTable (table_ne hspec), if_pos rfl]
  have hi₁ := (createTable_kept hspec hd).indexable hi
  obtain ⟨d, hrun, hcol⟩ := run_indexes (hi₁ spec hspec available hc) hc
  refine ⟨d, run_cons_ok.mpr ⟨d₁, map_ok.mpr hd, hrun⟩, ?_⟩
  intro spec' hspec' available' hc'
  exact hi₁ spec' hspec' available' (hcol _ ▸ hc')

theorem run_createMissing {db : Database} (hi : Indexable db) :
    ∃ d, engine.run (executescript createMissing) db = .ok d := by
  have hpragmas : ∀ l : List PyStr, engine.run (l.map Statement.pragma) db = .ok db := by
    intro l
    induction l with
    | nil => rfl
    | cons text l ih => exact run_cons_ok.mpr ⟨db, rfl, ih⟩
  have htables : ∀ l ⊆ schema, ∀ db, Indexable db →
      ∃ d, engine.run (l.flatMap TableSpec.statements) db = .ok d := by
    intro l
    induction l with
    | nil => exact fun _ db _ => ⟨db, rfl⟩
    | cons spec l ih =>
      intro hl db hi
      obtain ⟨d₁, hd, hi₁⟩ := run_statements (hl List.mem_cons_self) hi
      obtain ⟨d, hrun⟩ := ih (fun s hs => hl (List.mem_cons_of_mem spec hs)) d₁ hi₁
      refine ⟨d, ?_⟩
      rw [List.flatMap_cons, run_append, hd]
      exact hrun
  obtain ⟨d, hrun⟩ := htables schema (List.Subset.refl _) db hi
  refine ⟨d, run_cons_ok.mpr ⟨db, rfl, ?_⟩⟩
  rw [createMissing, run_append, hpragmas]
  exact hrun

theorem Kept.ne_none {db d : Database} (h : Kept db d) (hn : db.anchors ≠ none) :
    d.anchors ≠ none := by
  rcases h.anchors with ha | ⟨hn', -⟩
  · rwa [ha]
  · exact absurd hn' hn

/-- After the first script there is a table of anchors: its index has been looked for. -/
theorem anchors_of_createMissing {db d : Database}
    (h : engine.run (executescript createMissing) db = .ok d) : d.anchors ≠ none := by
  have hmem : Statement.createIndex true "idx_anchors_batch" anchorsName ["batch_id"] ∈
      executescript createMissing := by
    rw [executescript, createMissing, List.mem_cons, List.mem_append, List.mem_flatMap]
    refine Or.inr (Or.inr ⟨⟨anchorsName, newColumns, [("idx_anchors_batch", ["batch_id"])]⟩, ?_, ?_⟩)
    · simp only [schema, List.mem_cons, true_or, or_true, anchorsName]
    · exact List.mem_cons_of_mem _ List.mem_cons_self
  obtain ⟨l₁, l₂, d₁, d₂, hl, -, hindex, h₂⟩ := exists_run_of_mem hmem h
  have hd₁ : d₁.anchors ≠ none := by
    intro hn
    have hc : d₁.columns anchorsName = none := by
      rw [Database.columns, if_pos rfl, hn]
      rfl
    replace hindex := map_ok.mp hindex
    rw [createIndex, hc] at hindex
    cases hindex
  have hsub : l₂ ⊆ executescript createMissing := by
    intro s hs
    rw [hl]
    exact List.mem_append_right l₁ (List.mem_cons_of_mem _ hs)
  exact (createMissing_kept hsub h₂).ne_none ((createIndex_kept (map_ok.mp hindex)).ne_none hd₁)

theorem mode_createMissing {s : Statement Unit} (h : s ∈ executescript createMissing) :
    engine.mode s = .plain ∨ engine.mode s = .commit := by
  rcases mem_createMissing h with rfl | ⟨text, rfl⟩ | ⟨spec, -, rfl | ⟨index, -, rfl⟩⟩
  · exact Or.inr rfl
  all_goals exact Or.inl rfl

theorem killedAfter_of_le {db : Database} (hi : Indexable db) (uuid : PyStr) {k : ℕ}
    (hk : k ≤ (executescript createMissing).length) : Kept db (killedAfter k uuid db) := by
  obtain ⟨d, hrun⟩ := run_createMissing hi
  obtain ⟨p, d₁, ht, he, -⟩ := evalFor_script .commit .rollback
    (f := fun _ => upgrade uuid) (fun _ => mode_createMissing) hrun hk
  have hkilled : killedAfter k uuid db = d₁ := congrArg (fun x => x.2.committed) he
  rw [hkilled]
  exact createMissing_kept (List.take_subset k _) ht

theorem exists_upgrade {db : Database} (hi : Indexable db) (uuid : PyStr) :
    ∃ d, Kept db d ∧ d.anchors ≠ none ∧
      (∀ j, killedAfter ((executescript createMissing).length + j) uuid db =
        (evalFor engine.oracle j
          ((upgrade uuid).transaction .commit .rollback, opened d)).2.committed) ∧
      reopen uuid db =
        let x := ((upgrade uuid).transaction .commit .rollback).eval engine.oracle (opened d)
        (x.1, x.2.committed) := by
  obtain ⟨d, hrun⟩ := run_createMissing hi
  obtain ⟨p, d₁, -, he, hp⟩ := evalFor_script .commit .rollback
    (f := fun _ => upgrade uuid) (fun _ => mode_createMissing) hrun le_rfl
  obtain ⟨rfl, rfl⟩ := hp rfl
  have he' : evalFor engine.oracle (executescript createMissing).length
      (createSchema uuid, opened db) =
        ((upgrade uuid).transaction .commit .rollback, opened d₁) := he
  have heval := evalFor_eval (h := engine.oracle) (executescript createMissing).length
    (createSchema uuid, opened db)
  rw [he'] at heval
  refine ⟨d₁, createMissing_kept (List.Subset.refl _) hrun, anchors_of_createMissing hrun,
    fun j => ?_, ?_⟩
  · rw [killedAfter, evalFor_add, he']
  · rw [reopen, ← heval]

def finish (version : ℤ) (uuid : PyStr) : Prog Statement Exc Unit :=
  (writeVersion version).bind fun _ => writeNode uuid

/-- The statements that replace the table, up to the creation of the new one. -/
def clearAnchors : List (Statement Unit) :=
  [.dropIndexIfExists "idx_anchors_batch", .renameAnchors, .commit,
   .createTable false anchorsName newColumns]

def tidyAnchors : List (Statement Unit) :=
  [.dropAnchorsPreV4, .createIndex false "idx_anchors_batch" anchorsName ["batch_id"]]

def fillAnchors : List (Statement Unit) := .copyAnchors :: tidyAnchors

def Finishing : {β : Type} → Statement β → Prop
  | _, .pragma _ | _, .createIndex .. | _, .dropIndexIfExists _ | _, .dropAnchorsPreV4 => True
  | _, .tableInfo _ | _, .selectMetadata _ | _, .commit | _, .rollback => True
  | _, .updateMetadata key value => key = ascii "schema_version" ∧ value = ascii "4"
  | _, .insertMetadata key _ => key = ascii "node_instance_id"
  | _, .createTable .. | _, .renameAnchors | _, .copyAnchors => False

theorem indexable_of_tables {db d : Database} (ht : d.tables = db.tables)
    (ha : d.anchors = none ∨ ∃ t, d.anchors = some (.withVout t)) (hi : Indexable db) :
    Indexable d := by
  intro spec hspec available hc
  by_cases hname : spec.table = anchorsName
  · have hnew := spec_columns hspec hspec rfl
    rw [if_pos hname] at hnew
    rw [Database.columns, if_pos hname] at hc
    rcases ha with ha | ⟨t, ha⟩
    · rw [ha] at hc
      cases hc
    · rw [ha] at hc
      cases hc
      exact hnew
  · rw [Database.columns, if_neg hname, if_neg (table_ne hspec), ht] at hc
    apply hi spec hspec available
    rw [Database.columns, if_neg hname, if_neg (table_ne hspec), hc]

theorem lookup_update {l : List (PyStr × PyStr)} {key value value' : PyStr}
    (h : l.lookup key = some value') :
    (l.map fun row => if row.1 = key then (key, value) else row).lookup key = some value := by
  induction l with
  | nil => cases h
  | cons row l ih =>
    rw [List.map_cons]
    by_cases hr : row.1 = key
    · rw [if_pos hr, List.lookup_cons_self]
    · have hne : (key == row.1) = false := beq_false_of_ne fun he => hr he.symm
      rw [if_neg hr, List.lookup_cons, hne]
      rw [List.lookup_cons, hne] at h
      exact ih h

theorem finishing_keeps {a : Anchors} {β : Type} (s : Statement β) (d : Database) (x : β)
    (d' : Database) (hs : Finishing s) (h : Openable d ∧ (∃ t, a = .withVout t) ∧ d.anchors = some a)
    (ha : engine.answer s d = .ok (x, d')) :
    Openable d' ∧ (∃ t, a = .withVout t) ∧ d'.anchors = some a := by
  obtain ⟨ho, ⟨t, rfl⟩, hd⟩ := h
  have hkeep : ∀ d' : Database, d'.tables = d.tables → d'.metadata = d.metadata →
      d'.anchors = d.anchors → Openable d' ∧ (∃ t', Anchors.withVout t = .withVout t') ∧
        d'.anchors = some (.withVout t) := by
    intro d' ht hm ha'
    rw [hd] at ha'
    exact ⟨⟨indexable_of_tables ht (Or.inr ⟨t, ha'⟩) ho.indexable, hm ▸ ho.version⟩, ⟨t, rfl⟩, ha'⟩
  cases s with
  | createTable | renameAnchors | copyAnchors => exact hs.elim
  | pragma | tableInfo | selectMetadata | commit | rollback | dropIndexIfExists =>
    cases ha
    exact hkeep _ rfl rfl rfl
  | createIndex =>
    have hk := createIndex_kept (map_ok.mp ha)
    rcases hk.anchors with he | ⟨hn, -⟩
    · exact ⟨hk.openable ho, ⟨t, rfl⟩, he.trans hd⟩
    · rw [hd] at hn
      cases hn
  | dropAnchorsPreV4 =>
    replace ha := map_ok.mp ha
    unfold dropAnchorsPreV4 at ha
    cases hp : d.anchorsPreV4 with
    | none =>
      rw [hp] at ha
      cases ha
    | some t =>
      rw [hp] at ha
      cases ha
      exact hkeep _ rfl rfl rfl
  | updateMetadata key value =>
    obtain ⟨rfl, rfl⟩ := hs
    obtain ⟨v, -, hv⟩ := ho.version
    cases ha
    exact ⟨⟨indexable_of_tables rfl (Or.inr ⟨t, hd⟩) ho.indexable, _,
      List.mem_cons_of_mem _ (List.mem_cons_of_mem _ List.mem_cons_self), lookup_update hv⟩,
      ⟨t, rfl⟩, hd⟩
  | insertMetadata key value =>
    obtain ⟨v, hmem, hv⟩ := ho.version
    replace ha := map_ok.mp ha
    unfold insertMetadata at ha
    split_ifs at ha
    · cases ha
    · cases ha
      exact ⟨⟨indexable_of_tables rfl (Or.inr ⟨t, hd⟩) ho.indexable, v, hmem, by
        rw [List.lookup_append, hv, Option.some_or]⟩, ⟨t, rfl⟩, hd⟩

theorem finish_only (version : ℤ) (uuid : PyStr) : (finish version uuid).Only Finishing := by
  apply Only.bind
  · unfold writeVersion
    split_ifs
    · exact only_perform ⟨rfl, by decide⟩
    · trivial
  · intro _
    apply (only_perform trivial).bind
    rintro (_ | _)
    · exact only_perform rfl
    · trivial

theorem keeps_finishing {p : Prog Statement Exc Unit} (hp : p.Only Finishing) {d : Database}
    (ho : Openable d) {t : NewAnchors} (ha : d.anchors = some (.withVout t)) (n : ℕ) :
    let d' := (evalFor engine.oracle n (p, opened d)).2.committed
    Openable d' ∧ d'.anchors = some (.withVout t) := by
  obtain ⟨⟨ho', -, ha'⟩, -⟩ := keeps hp (finishing_keeps (a := .withVout t)) n
    (c := opened d) ⟨ho, ⟨t, rfl⟩, ha⟩ ⟨ho, ⟨t, rfl⟩, ha⟩
  exact ⟨ho', ha'⟩

theorem eval_finish (version : ℤ) (uuid : PyStr) (d : Database) :
    ∃ c, (finish version uuid).eval engine.oracle (opened d) = (.ok (), c) := by
  obtain ⟨c, hc⟩ : ∃ c, (writeVersion version).eval engine.oracle (opened d) = (.ok (), c) := by
    unfold writeVersion
    split_ifs
    · rw [eval_perform]
      exact ⟨_, rfl⟩
    · exact ⟨_, rfl⟩
  rw [finish, eval_bind, hc]
  simp only
  rw [writeNode, bind_eq, eval_bind, eval_perform, oracle_ok rfl]
  simp only
  rw [show engine.mode (.selectMetadata (ascii "node_instance_id")) = .plain from rfl, after_view]
  cases hn : c.view.metadata.lookup (ascii "node_instance_id") with
  | some node => exact ⟨_, rfl⟩
  | none =>
    have hfresh : ascii "node_instance_id" ∉ c.view.metadata.map Prod.fst := by
      intro h
      obtain ⟨row, hrow, he⟩ := List.mem_map.mp h
      have hne := List.lookup_eq_none_iff.mp hn row hrow
      rw [he, bne_self_eq_false] at hne
      cases hne
    have hanswer := map_ok.mpr (if_neg hfresh :
      insertMetadata c.view (ascii "node_instance_id") uuid = .ok _)
    simp only [eval_perform]
    rw [oracle_ok hanswer]
    exact ⟨_, rfl⟩

/-- Once the anchors are in place, the upgrade ends normally and leaves them there. -/
theorem eval_of_finish {d : Database} (ho : Openable d) {t : NewAnchors}
    (ha : d.anchors = some (.withVout t)) (version : ℤ) (uuid : PyStr) :
    let x := ((finish version uuid).transaction .commit .rollback).eval engine.oracle (opened d)
    x.1 = .ok () ∧ x.2.committed.anchors = some (.withVout t) := by
  obtain ⟨c, hc⟩ := eval_finish version uuid d
  constructor
  · rw [eval_transaction hc (oracle_ok rfl)]
  · obtain ⟨n, hn⟩ := exists_evalFor_eval (h := engine.oracle)
      ((finish version uuid).transaction .commit .rollback) (opened d)
    have honly : ((finish version uuid).transaction .commit .rollback).Only Finishing :=
      .transaction trivial trivial (finish_only version uuid)
    rw [← hn]
    exact (keeps_finishing honly ho ha n).2

theorem upgrade_eq (uuid : PyStr) :
    upgrade uuid = readVersion.bind fun version =>
      migrateAnchors.bind fun _ => finish version uuid := rfl

theorem evalFor_upgrade {d : Database} (ho : Openable d) (uuid : PyStr) : ∃ version,
    evalFor engine.oracle 1 ((upgrade uuid).transaction .commit .rollback, opened d) =
      ((migrateAnchors.bind fun _ => finish version uuid).transaction .commit .rollback,
        opened d) := by
  obtain ⟨value, hmem, hvalue⟩ := ho.version
  obtain ⟨version, hversion⟩ := checkVersion_ok hmem
  have hanswer : engine.answer (.selectMetadata (ascii "schema_version")) (opened d).view =
      .ok (some value, d) := by
    rw [← hvalue]
    rfl
  refine ⟨version, ?_⟩
  rw [upgrade_eq, readVersion, bind_eq, bind_assoc, evalFor_perform hanswer 0]
  simp only [hversion]
  rfl

theorem evalFor_migrateAnchors_withVout {d : Database} {t : NewAnchors}
    (ha : d.anchors = some (.withVout t)) (f : Unit → Prog Statement Exc Unit) :
    evalFor engine.oracle 1 ((migrateAnchors.bind f).transaction .commit .rollback, opened d) =
      ((f ()).transaction .commit .rollback, opened d) := by
  have hanswer : engine.answer (.tableInfo anchorsName) (opened d).view = .ok (newColumns, d) := by
    show Except.ok ((d.columns anchorsName).getD [], d) = _
    rw [Database.columns, if_pos rfl, ha]
    rfl
  rw [migrateAnchors, bind_eq, bind_assoc, evalFor_perform hanswer 0, if_neg (by decide)]
  rfl

theorem evalFor_migrateAnchors_withoutVout {d : Database} {t : OldAnchors}
    (ha : d.anchors = some (.withoutVout t)) (f : Unit → Prog Statement Exc Unit) :
    evalFor engine.oracle 1 ((migrateAnchors.bind f).transaction .commit .rollback, opened d) =
      (((script clearAnchors).bind fun _ => (script fillAnchors).bind f).transaction .commit
        .rollback, opened d) := by
  have hanswer : engine.answer (.tableInfo anchorsName) (opened d).view = .ok (oldColumns, d) := by
    show Except.ok ((d.columns anchorsName).getD [], d) = _
    rw [Database.columns, if_pos rfl, ha]
    rfl
  rw [migrateAnchors, bind_eq, bind_assoc, evalFor_perform hanswer 0, if_pos (by decide),
    ← bind_assoc, ← script_append]
  rfl

/-! The old table is renamed, and a new one takes its place. -/

def renamed (d : Database) (t : OldAnchors) : Database :=
  { d with
    anchors := none
    anchorsPreV4 := some t
    indexes := (dropIndexIfExists d "idx_anchors_batch").indexes.map fun i =>
      if i.2 = anchorsName then (i.1, anchorsPreV4Name) else i }

def recreated (d : Database) (t : OldAnchors) : Database :=
  { renamed d t with anchors := some (.withVout .empty) }

theorem run_clearAnchors {d : Database} {t : OldAnchors} (ha : d.anchors = some (.withoutVout t))
    (hp : d.anchorsPreV4 = none) (k : ℕ) : engine.run (clearAnchors.take k) d = .ok (match k with
      | 0 => d
      | 1 => dropIndexIfExists d "idx_anchors_batch"
      | 2 | 3 => renamed d t
      | _ + 4 => recreated d t) := by
  have hrename : engine.answer .renameAnchors (dropIndexIfExists d "idx_anchors_batch") =
      .ok ((), renamed d t) := by
    apply map_ok.mpr
    unfold renameAnchors
    simp only [dropIndexIfExists, ha, hp]
    rfl
  have hcreate : engine.answer (.createTable false anchorsName newColumns) (renamed d t) =
      .ok ((), recreated d t) := rfl
  match k with
  | 0 => rfl
  | 1 => rfl
  | 2 => exact run_cons_ok.mpr ⟨_, rfl, run_cons_ok.mpr ⟨_, hrename, rfl⟩⟩
  | 3 => exact run_cons_ok.mpr ⟨_, rfl, run_cons_ok.mpr ⟨_, hrename, rfl⟩⟩
  | k + 4 =>
    exact run_cons_ok.mpr ⟨_, rfl, run_cons_ok.mpr ⟨_, hrename, run_cons_ok.mpr ⟨_, rfl,
      run_cons_ok.mpr ⟨_, hcreate, by rw [List.take_nil]; rfl⟩⟩⟩⟩

def migrated (t : OldAnchors) : NewAnchors where
  rows := t.rows.map OldAnchor.atZero
  seqs_nodup := by
    rw [List.map_map]
    exact t.seqs_nodup
  points_nodup := by
    have hpoints : (t.rows.map OldAnchor.atZero).map NewAnchor.point =
        (t.rows.map OldAnchor.txid).map fun txid => (txid, (0 : ℤ)) := by
      rw [List.map_map, List.map_map]
      rfl
    rw [hpoints]
    exact t.txids_nodup.map fun a b h => congrArg Prod.fst h

def copied (d : Database) (t : OldAnchors) : Database :=
  { recreated d t with anchors := some (.withVout (migrated t)) }

theorem copyAnchors_recreated (d : Database) (t : OldAnchors) :
    copyAnchors (recreated d t) =
      if t.rows.all fun a => decide (a.batchId ∈ d.batches) then .ok (copied d t)
      else raise .integrityError "FOREIGN KEY constraint failed" := by
  have hs : ((NewAnchors.empty.rows ++ t.rows.map OldAnchor.atZero).map
    fun a => a.ingestSeq).Nodup := (migrated t).seqs_nodup
  have hp : ((NewAnchors.empty.rows ++ t.rows.map OldAnchor.atZero).map
    NewAnchor.point).Nodup := (migrated t).points_nodup
  unfold copyAnchors
  simp only [recreated, renamed]
  rw [dif_pos hs, dif_pos hp]
  rfl

theorem copyAnchors_of_stored {d : Database} {t : OldAnchors}
    (hstored : ∀ a ∈ t.rows, a.batchId ∈ d.batches) :
    engine.answer .copyAnchors (recreated d t) = .ok ((), copied d t) := by
  apply map_ok.mpr
  rw [copyAnchors_recreated, if_pos]
  exact List.all_eq_true.mpr fun a ha => decide_eq_true (hstored a ha)

theorem copyAnchors_of_missing {d : Database} {t : OldAnchors} {a : OldAnchor} (ha : a ∈ t.rows)
    (hmissing : a.batchId ∉ d.batches) :
    ∃ e, engine.answer .copyAnchors (recreated d t) = .error e := by
  have herror : copyAnchors (recreated d t) =
      raise .integrityError "FOREIGN KEY constraint failed" := by
    rw [copyAnchors_recreated, if_neg]
    exact fun hall => hmissing (of_decide_eq_true (List.all_eq_true.mp hall a ha))
  refine ⟨⟨.integrityError, ascii "FOREIGN KEY constraint failed"⟩, ?_⟩
  show ((), ·) <$> copyAnchors (recreated d t) = _
  rw [herror]
  rfl

def renamedAfter : ℕ := (executescript createMissing).length + 4

def copiedAfter : ℕ := renamedAfter + 3

structure Intact (batches : List PyStr) (t : OldAnchors) (d : Database) : Prop where
  openable : Openable d
  anchors : d.anchors = some (.withoutVout t)
  anchorsPreV4 : d.anchorsPreV4 = none
  batches : d.batches = batches

/-- The old table was renamed, and its rows are not in the new one. -/
structure Stranded (d : Database) : Prop where
  openable : Openable d
  anchors : d.anchors = none ∨ d.anchors = some (.withVout .empty)

structure Moved (t : OldAnchors) (d : Database) : Prop where
  openable : Openable d
  anchors : d.anchors = some (.withVout (migrated t))

variable {batches : List PyStr} {t : OldAnchors}

theorem Legacy.intact {db : Database} (h : Legacy db t) : Intact db.batches t db where
  openable := by
    obtain ⟨value, hmem, hvalue⟩ := h.version
    refine ⟨h.indexable, value, ?_, hvalue⟩
    exact List.mem_append_left [ascii "4"] hmem
  anchors := h.anchors
  anchorsPreV4 := h.anchorsPreV4
  batches := rfl

theorem Kept.intact {db d : Database} (h : Kept db d) (hi : Intact batches t db) :
    Intact batches t d where
  openable := h.openable hi.openable
  anchors := by
    rcases h.anchors with ha | ⟨hn, -⟩
    · exact ha.trans hi.anchors
    · rw [hi.anchors] at hn
      cases hn
  anchorsPreV4 := h.anchorsPreV4.trans hi.anchorsPreV4
  batches := h.batches.trans hi.batches

theorem openable_of_tables {db d : Database} (h : Openable db) (ht : d.tables = db.tables)
    (hm : d.metadata = db.metadata)
    (ha : d.anchors = none ∨ ∃ t, d.anchors = some (.withVout t)) : Openable d :=
  ⟨indexable_of_tables ht ha h.indexable, hm ▸ h.version⟩

theorem Intact.renamed {d : Database} (h : Intact batches t d) : Stranded (renamed d t) :=
  ⟨openable_of_tables h.openable rfl rfl (Or.inl rfl), Or.inl rfl⟩

theorem Intact.recreated {d : Database} (h : Intact batches t d) : Stranded (recreated d t) :=
  ⟨openable_of_tables h.openable rfl rfl (Or.inr ⟨_, rfl⟩), Or.inr rfl⟩

theorem Intact.copied {d : Database} (h : Intact batches t d) : Moved t (copied d t) :=
  ⟨openable_of_tables h.openable rfl rfl (Or.inr ⟨_, rfl⟩), rfl⟩

theorem Intact.dropIndex {d : Database} (h : Intact batches t d) :
    Intact batches t (dropIndexIfExists d "idx_anchors_batch") :=
  ⟨⟨h.openable.indexable, h.openable.version⟩, h.anchors, h.anchorsPreV4, h.batches⟩

section Upgrade

variable {d : Database} (h : Intact batches t d) (uuid : PyStr)
include h

theorem evalFor_clear : ∃ version, ∀ k ≤ 4, ∃ p, evalFor engine.oracle (2 + k)
    ((upgrade uuid).transaction .commit .rollback, opened d) = (p, opened (match k with
      | 0 => d
      | 1 => dropIndexIfExists d "idx_anchors_batch"
      | 2 | 3 => Migration.renamed d t
      | _ + 4 => Migration.recreated d t)) ∧
    (k = 4 → p = ((script fillAnchors).bind fun _ => finish version uuid).transaction .commit
      .rollback) := by
  obtain ⟨version, hv⟩ := evalFor_upgrade h.openable uuid
  refine ⟨version, fun k hk => ?_⟩
  have htwo : evalFor engine.oracle 2
      ((upgrade uuid).transaction .commit .rollback, opened d) = _ :=
    (evalFor_add 1 1 _).trans (hv ▸ evalFor_migrateAnchors_withoutVout h.anchors _)
  have hmode : ∀ s ∈ clearAnchors, engine.mode s = .plain ∨ engine.mode s = .commit := by
    intro s hs
    simp only [clearAnchors, List.mem_cons, List.not_mem_nil, or_false] at hs
    rcases hs with rfl | rfl | rfl | rfl
    · exact Or.inl rfl
    · exact Or.inl rfl
    · exact Or.inr rfl
    · exact Or.inl rfl
  have hrun := run_clearAnchors h.anchors h.anchorsPreV4
  obtain ⟨p, d₁, ht, he, hp⟩ := evalFor_script .commit .rollback
    (f := fun _ => (script fillAnchors).bind fun _ => finish version uuid) hmode (hrun 4) hk
  obtain rfl := Except.ok.inj (ht.symm.trans (hrun k))
  refine ⟨p, ?_, fun hk' => (hp hk').1⟩
  rw [evalFor_add, htwo, he]

theorem evalFor_recreated : ∃ version,
    evalFor engine.oracle 6 ((upgrade uuid).transaction .commit .rollback, opened d) =
      (((script fillAnchors).bind fun _ => finish version uuid).transaction .commit .rollback,
        opened (Migration.recreated d t)) := by
  obtain ⟨version, hv⟩ := evalFor_clear h uuid
  obtain ⟨p, he, hp⟩ := hv 4 le_rfl
  exact ⟨version, by rw [← hp rfl]; exact he⟩

theorem evalFor_copied (hstored : ∀ a ∈ t.rows, a.batchId ∈ d.batches) : ∃ p,
    evalFor engine.oracle 7 ((upgrade uuid).transaction .commit .rollback, opened d) =
      (p, opened (Migration.copied d t)) ∧ p.Only Finishing := by
  obtain ⟨version, hv⟩ := evalFor_recreated h uuid
  rw [fillAnchors, script_cons, bind_assoc] at hv
  refine ⟨((script tidyAnchors).bind fun _ => finish version uuid).transaction .commit .rollback,
    ?_, ?_⟩
  · rw [evalFor_add 6 1, hv, evalFor_perform (copyAnchors_of_stored hstored) 0]
    rfl
  · apply Only.transaction trivial trivial
    apply (only_script _).bind fun _ => finish_only version uuid
    intro s hs
    simp only [tidyAnchors, List.mem_cons, List.not_mem_nil, or_false] at hs
    rcases hs with rfl | rfl
    · trivial
    · trivial

theorem evalFor_missing {a : OldAnchor} (ha : a ∈ t.rows) (hmissing : a.batchId ∉ d.batches) :
    ∃ p, evalFor engine.oracle 7 ((upgrade uuid).transaction .commit .rollback, opened d) =
      (p, opened (Migration.recreated d t)) ∧ p.Only Finishing ∧
        ∀ c, (p.eval engine.oracle c).1 ≠ .ok () := by
  obtain ⟨version, hv⟩ := evalFor_recreated h uuid
  obtain ⟨e, he⟩ := copyAnchors_of_missing ha hmissing
  rw [fillAnchors, script_cons, bind_assoc] at hv
  refine ⟨(perform .rollback).bind fun _ => Prog.raise e, ?_, ?_, ?_⟩
  · rw [evalFor_add 6 1, hv, evalFor_perform_error he 0]
    rfl
  · exact (only_perform trivial).bind fun _ => trivial
  · intro c
    rw [eval_bind, eval_perform]
    rcases engine.oracle Statement.rollback c with ⟨_ | _, c'⟩ <;> nofun

theorem run_tidyAnchors : ∃ d', engine.run tidyAnchors (Migration.copied d t) = .ok d' ∧
    Moved t d' := by
  obtain ⟨d₁, hdrop, hd₁⟩ : ∃ d₁, dropAnchorsPreV4 (Migration.copied d t) = .ok d₁ ∧
      d₁ = { Migration.copied d t with
        anchorsPreV4 := none
        indexes := (Migration.copied d t).indexes.filter fun i => i.2 ≠ anchorsPreV4Name } :=
    ⟨_, rfl, rfl⟩
  have hcolumns : d₁.columns anchorsName = some newColumns := by
    rw [hd₁]
    rfl
  have hfree : ascii "idx_anchors_batch" ∉ d₁.indexes.map Prod.fst := by
    intro hmem
    obtain ⟨i, hi, he⟩ := List.mem_map.mp hmem
    rw [hd₁] at hi
    obtain ⟨j, hj, rfl⟩ := List.mem_map.mp (List.mem_filter.mp hi).1
    have hne : j.1 ≠ ascii "idx_anchors_batch" := of_decide_eq_true (List.mem_filter.mp hj).2
    split_ifs at he
    · exact hne he
    · exact hne he
  obtain ⟨d', hindex, hd'⟩ : ∃ d', createIndex d₁ false "idx_anchors_batch" anchorsName
      ["batch_id"] = .ok d' ∧
      d' = { d₁ with indexes := d₁.indexes ++ [(ascii "idx_anchors_batch", anchorsName)] } := by
    refine ⟨_, ?_, rfl⟩
    rw [createIndex, hcolumns]
    simp only
    rw [if_neg hfree, if_pos (by decide)]
  refine ⟨d', run_cons_ok.mpr ⟨d₁, map_ok.mpr hdrop, run_cons_ok.mpr ⟨d', map_ok.mpr hindex, rfl⟩⟩,
    ?_⟩
  rw [hd', hd₁]
  exact ⟨openable_of_tables h.openable rfl rfl (Or.inr ⟨_, rfl⟩), rfl⟩

/-- The old table is replaced, and the rest goes on with the rows in the new one. -/
theorem eval_upgrade_intact (hstored : ∀ a ∈ t.rows, a.batchId ∈ d.batches) :
    let x := ((upgrade uuid).transaction .commit .rollback).eval engine.oracle (opened d)
    x.1 = .ok () ∧ x.2.committed.anchors = some (.withVout (migrated t)) := by
  obtain ⟨version, hv⟩ := evalFor_recreated h uuid
  obtain ⟨d', htidy, hm⟩ := run_tidyAnchors h
  have hrun : engine.run fillAnchors (Migration.recreated d t) = .ok d' :=
    run_cons_ok.mpr ⟨_, copyAnchors_of_stored hstored, htidy⟩
  have hmode : ∀ s ∈ fillAnchors, engine.mode s = .plain ∨ engine.mode s = .commit := by
    intro s hs
    simp only [fillAnchors, tidyAnchors, List.mem_cons, List.not_mem_nil, or_false] at hs
    rcases hs with rfl | rfl | rfl
    all_goals exact Or.inl rfl
  obtain ⟨p, d₁, -, he, hp⟩ := evalFor_script .commit .rollback
    (f := fun _ => finish version uuid) hmode hrun le_rfl
  obtain ⟨rfl, rfl⟩ := hp rfl
  have heval := evalFor_eval (h := engine.oracle) 6
    ((upgrade uuid).transaction .commit .rollback, opened d)
  have hscript := evalFor_eval (h := engine.oracle) fillAnchors.length
    (((script fillAnchors).bind fun _ => finish version uuid).transaction .commit .rollback,
      opened (Migration.recreated d t))
  rw [hv] at heval
  rw [he] at hscript
  rw [← heval, ← hscript]
  exact eval_of_finish hm.openable hm.anchors version uuid

theorem eval_upgrade_missing {a : OldAnchor} (ha : a ∈ t.rows) (hmissing : a.batchId ∉ d.batches) :
    (((upgrade uuid).transaction .commit .rollback).eval engine.oracle (opened d)).1 ≠ .ok () := by
  obtain ⟨p, he, -, hp⟩ := evalFor_missing h uuid ha hmissing
  have heval := evalFor_eval (h := engine.oracle) 7
    ((upgrade uuid).transaction .commit .rollback, opened d)
  rw [he] at heval
  rw [← heval]
  exact hp _

end Upgrade

theorem eval_upgrade_withVout {d : Database} (ho : Openable d) {t' : NewAnchors}
    (ha : d.anchors = some (.withVout t')) (uuid : PyStr) :
    let x := ((upgrade uuid).transaction .commit .rollback).eval engine.oracle (opened d)
    x.1 = .ok () ∧ x.2.committed.anchors = some (.withVout t') := by
  obtain ⟨version, hv⟩ := evalFor_upgrade ho uuid
  have heval := evalFor_eval (h := engine.oracle) (1 + 1)
    ((upgrade uuid).transaction .commit .rollback, opened d)
  rw [evalFor_add, hv, evalFor_migrateAnchors_withVout ha] at heval
  rw [← heval]
  exact eval_of_finish ho ha version uuid

theorem reopen_of_intact {d : Database} (h : Intact batches t d) (uuid : PyStr) :
    Migrated t (reopen uuid d) ↔ ∀ a ∈ t.rows, a.batchId ∈ batches := by
  obtain ⟨d', hk, -, -, hr⟩ := exists_upgrade h.openable.indexable uuid
  have hi := hk.intact h
  rw [hr]
  constructor
  · intro hm a ha
    by_contra hmissing
    exact eval_upgrade_missing hi uuid ha (hi.batches ▸ hmissing) hm.1
  · intro hstored
    obtain ⟨hok, ha⟩ := eval_upgrade_intact hi uuid fun a ha => hi.batches ▸ hstored a ha
    exact ⟨hok, _, ha, rfl⟩

theorem reopen_of_stranded {d : Database} (h : Stranded d) (uuid : PyStr) :
    Migrated t (reopen uuid d) ↔ t.rows = [] := by
  obtain ⟨d', hk, hn, -, hr⟩ := exists_upgrade h.openable.indexable uuid
  have ha' : d'.anchors = some (.withVout .empty) := by
    rcases hk.anchors with ha | ⟨-, ha⟩
    · rcases h.anchors with hnone | hempty
      · exact absurd (ha.trans hnone) hn
      · exact ha.trans hempty
    · exact ha
  obtain ⟨hok, ha⟩ := eval_upgrade_withVout (hk.openable h.openable) ha' uuid
  rw [hr]
  constructor
  · rintro ⟨-, t', ht', hrows⟩
    rw [ha] at ht'
    obtain rfl := Anchors.withVout.inj (Option.some.inj ht')
    exact List.map_eq_nil_iff.mp hrows.symm
  · intro hrows
    exact ⟨hok, _, ha, by rw [hrows]; rfl⟩

theorem reopen_of_moved {d : Database} (h : Moved t d) (uuid : PyStr) :
    Migrated t (reopen uuid d) := by
  obtain ⟨d', hk, -, -, hr⟩ := exists_upgrade h.openable.indexable uuid
  have ha' : d'.anchors = some (.withVout (migrated t)) := by
    rcases hk.anchors with ha | ⟨hn, -⟩
    · exact ha.trans h.anchors
    · rw [h.anchors] at hn
      cases hn
  obtain ⟨hok, ha⟩ := eval_upgrade_withVout (hk.openable h.openable) ha' uuid
  rw [hr]
  exact ⟨hok, _, ha, rfl⟩

theorem killedAfter_intact {db : Database} (h : Legacy db t) (uuid : PyStr) {k : ℕ}
    (hk : k < renamedAfter) : Intact db.batches t (killedAfter k uuid db) := by
  by_cases hle : k ≤ (executescript createMissing).length
  · exact (killedAfter_of_le h.indexable uuid hle).intact h.intact
  · obtain ⟨j, rfl⟩ := Nat.exists_eq_add_of_le (Nat.le_of_not_le hle)
    obtain ⟨d, hkept, -, hkill, -⟩ := exists_upgrade h.indexable uuid
    have hi := hkept.intact h.intact
    rw [hkill]
    have hj : j < 4 := Nat.lt_of_add_lt_add_left hk
    obtain ⟨version, hv⟩ := evalFor_clear hi uuid
    match j with
    | 0 => exact hi
    | 1 =>
      obtain ⟨version', hv'⟩ := evalFor_upgrade hi.openable uuid
      rw [hv']
      exact hi
    | 2 =>
      obtain ⟨p, hp, -⟩ := hv 0 (by decide)
      rw [hp]
      exact hi
    | 3 =>
      obtain ⟨p, hp, -⟩ := hv 1 (by decide)
      rw [hp]
      exact hi.dropIndex

theorem killedAfter_stranded {db : Database} (h : Legacy db t) (uuid : PyStr) {k : ℕ}
    (hle : renamedAfter ≤ k) (hlt : k < copiedAfter) : Stranded (killedAfter k uuid db) := by
  obtain ⟨j, rfl⟩ := Nat.exists_eq_add_of_le hle
  obtain ⟨d, hkept, -, hkill, -⟩ := exists_upgrade h.indexable uuid
  have hi := hkept.intact h.intact
  have hj : j < 3 := Nat.lt_of_add_lt_add_left hlt
  obtain ⟨version, hv⟩ := evalFor_clear hi uuid
  obtain ⟨p, hp, -⟩ := hv (2 + j) (by omega)
  rw [renamedAfter, Nat.add_assoc, hkill, show 4 + j = 2 + (2 + j) by omega, hp]
  match j with
  | 0 => exact hi.renamed
  | 1 => exact hi.renamed
  | 2 => exact hi.recreated

theorem killedAfter_moved {db : Database} (h : Legacy db t) (uuid : PyStr)
    (hstored : ∀ a ∈ t.rows, a.batchId ∈ db.batches) {k : ℕ} (hle : copiedAfter ≤ k) :
    Moved t (killedAfter k uuid db) := by
  obtain ⟨j, rfl⟩ := Nat.exists_eq_add_of_le hle
  obtain ⟨d, hkept, -, hkill, -⟩ := exists_upgrade h.indexable uuid
  have hi := hkept.intact h.intact
  obtain ⟨p, hp, honly⟩ := evalFor_copied hi uuid fun a ha => hi.batches ▸ hstored a ha
  rw [copiedAfter, renamedAfter, Nat.add_assoc, Nat.add_assoc, hkill,
    show 4 + (3 + j) = 7 + j by omega, evalFor_add, hp]
  obtain ⟨ho, ha⟩ := keeps_finishing honly hi.copied.openable hi.copied.anchors j
  exact ⟨ho, ha⟩

theorem killedAfter_missing {db : Database} (h : Legacy db t) (uuid : PyStr) {a : OldAnchor}
    (ha : a ∈ t.rows) (hmissing : a.batchId ∉ db.batches) {k : ℕ} (hle : copiedAfter ≤ k) :
    Stranded (killedAfter k uuid db) := by
  obtain ⟨j, rfl⟩ := Nat.exists_eq_add_of_le hle
  obtain ⟨d, hkept, -, hkill, -⟩ := exists_upgrade h.indexable uuid
  have hi := hkept.intact h.intact
  obtain ⟨p, hp, honly, -⟩ := evalFor_missing hi uuid ha (hi.batches ▸ hmissing)
  rw [copiedAfter, renamedAfter, Nat.add_assoc, Nat.add_assoc, hkill,
    show 4 + (3 + j) = 7 + j by omega, evalFor_add, hp]
  obtain ⟨ho, ha⟩ := keeps_finishing honly hi.recreated.openable rfl j
  exact ⟨ho, Or.inr ha⟩

/-- Killed after any number of statements and opened once more, the database has all its anchors
if there were none, or if every batch of theirs is stored and the process was not killed between
the renaming of their table and the copy of its rows. -/
theorem migrated_iff {db : Database} (h : Legacy db t) (k : ℕ) (uuid uuid' : PyStr) :
    Migrated t (reopen uuid' (killedAfter k uuid db)) ↔
      t.rows = [] ∨ (∀ a ∈ t.rows, a.batchId ∈ db.batches) ∧
        ¬ (renamedAfter ≤ k ∧ k < copiedAfter) := by
  have hnil : t.rows = [] → ∀ a ∈ t.rows, a.batchId ∈ db.batches := by
    intro hn a ha
    rw [hn] at ha
    cases ha
  by_cases hlt : k < renamedAfter
  · rw [reopen_of_intact (killedAfter_intact h uuid hlt)]
    exact ⟨fun hs => Or.inr ⟨hs, fun hw => absurd hw.1 (Nat.not_le_of_lt hlt)⟩,
      fun hor => hor.elim hnil And.left⟩
  have hle := Nat.le_of_not_lt hlt
  by_cases hlt' : k < copiedAfter
  · rw [reopen_of_stranded (killedAfter_stranded h uuid hle hlt')]
    exact ⟨Or.inl, fun hor => hor.elim id fun hs => absurd ⟨hle, hlt'⟩ hs.2⟩
  have hle' := Nat.le_of_not_lt hlt'
  by_cases hstored : ∀ a ∈ t.rows, a.batchId ∈ db.batches
  · have hm := reopen_of_moved (killedAfter_moved h uuid hstored hle') uuid'
    exact ⟨fun _ => Or.inr ⟨hstored, fun hw => hlt' hw.2⟩, fun _ => hm⟩
  · simp only [not_forall] at hstored
    obtain ⟨a, ha, hmissing⟩ := hstored
    rw [reopen_of_stranded (killedAfter_missing h uuid ha hmissing hle')]
    exact ⟨Or.inl, fun hor => hor.elim id fun hs => absurd (hs.1 a ha) hmissing⟩

section Witness

def storedBatchId : PyStr := List.replicate 64 0x31

def sampleAnchors : OldAnchors where
  rows := [⟨1, List.replicate 64 0x61, storedBatchId, "regtest", "unverified", 1, none, none⟩]
  seqs_nodup := List.nodup_singleton _
  txids_nodup := List.nodup_singleton _

def sampleDatabase : Database where
  tables := fun table => if table ∈ [ascii "metadata", ascii "records", ascii "batches"] then
    (schema.find? fun spec => spec.table = table).map TableSpec.columns else none
  indexes := []
  metadata := [("schema_version", "3")]
  batches := [storedBatchId]
  anchors := some (.withoutVout sampleAnchors)
  anchorsPreV4 := none

theorem sampleDatabase_legacy : Legacy sampleDatabase sampleAnchors where
  indexable := by
    have hall : schema.all fun spec => (sampleDatabase.columns spec.table).all fun available =>
        spec.indexes.all fun index => index.2.all fun c => decide (c ∈ available) := by
      decide +kernel
    intro spec hspec available hc index hindex c hc'
    have hspec' := List.all_eq_true.mp hall spec hspec
    rw [hc] at hspec'
    exact of_decide_eq_true
      (List.all_eq_true.mp (List.all_eq_true.mp hspec' index hindex) c hc')
  version := ⟨ascii "3", List.mem_cons_of_mem _ List.mem_cons_self, rfl⟩
  anchors := rfl
  anchorsPreV4 := rfl

theorem migrated_iff_sample :
    Migrated sampleAnchors (reopen "b" (killedAfter copiedAfter "a" sampleDatabase)) ↔
      sampleAnchors.rows = [] ∨
        (∀ a ∈ sampleAnchors.rows, a.batchId ∈ sampleDatabase.batches) ∧
          ¬ (renamedAfter ≤ copiedAfter ∧ copiedAfter < copiedAfter) :=
  migrated_iff sampleDatabase_legacy copiedAfter "a" "b"

/-- The process is killed right after the old table has been renamed. -/
theorem renamed_not_migrated : Legacy sampleDatabase sampleAnchors ∧
    (∀ a ∈ sampleAnchors.rows, a.batchId ∈ sampleDatabase.batches) ∧
    ¬ Migrated sampleAnchors (reopen "b" (killedAfter renamedAfter "a" sampleDatabase)) := by
  have hstranded := killedAfter_stranded sampleDatabase_legacy "a" (Nat.le_refl renamedAfter)
    (Nat.lt_add_of_pos_right (by decide))
  refine ⟨sampleDatabase_legacy, ?_, fun h => ?_⟩
  · intro a ha
    rw [List.mem_singleton.mp ha]
    exact List.mem_singleton.mpr rfl
  · cases (reopen_of_stranded hstranded "b").mp h

end Witness

end Migration

end HistoryAnchor

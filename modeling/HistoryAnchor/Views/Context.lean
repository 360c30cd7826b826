import HistoryAnchor.Exchange.Serving
import HistoryAnchor.Protocol.Typed
import HistoryAnchor.Views.Provenance
import HistoryAnchor.Views.Rule

/-! # The view of a record

Everything that the node returns for an identifier: the record, its assessment, its
provenance, its responsible-publication view, its links and its proofs. Links are
looked up by the text of the identifier, and the view raises on a list that is null.
-/

namespace HistoryAnchor

open Python Effects Prog Tables Responsible Provenance

section Context

variable [Ed25519] {s : Store} {e : EvidenceStore} {r t : Record} {field : PyStr}

namespace Store

def linkedRecords (s : Store) (targetRecordId : PyStr) : List Record :=
  s.records.rows.filter fun r => (r.body.getD "target_record_id" .null).eqStr targetRecordId

/-- `confirmed_anchor_heights(ids).get`. -/
def confirmedAnchorHeights (s : Store) (recordIds : List PyStr) (recordId : PyStr) : Option ℤ :=
  if recordId ∈ recordIds then s.confirmedAnchorHeightForRecord recordId else none

def batchesForRecord (s : Store) (recordId : PyStr) : List Batch :=
  s.batches.rows.filter fun b =>
    s.recordBatches.rows.any fun l => l.recordId = recordId ∧ l.batchId = b.batchId

end Store

/-- A proof without its schema and version. -/
structure RecordProof where
  recordId : PyStr
  batch : Batch
  index : ℕ
  path : List Json
  anchors : List Anchor

structure RecordView where
  record : Record
  classification : Classification
  assessment : Option Assessment
  provenance : Option Graph
  responsiblePublication : Option Responsible.View
  linkedRecords : List Record
  proofs : List RecordProof

namespace Service

def availableDigest (e : EvidenceStore) (item : Json) : Py (Option PyStr) := do
  let digest := item.getD "sha256" .null
  let has ← e.has digest
  if !has then return none
  let verified ← e.verify digest
  return if verified then some (item.text "sha256") else none

def recordAssessment (s : Store) (e : EvidenceStore) (recordId : PyStr) :
    Py (Option Assessment) := do
  let some record := s.records.find? recordId | return none
  let linked := s.linkedRecords recordId
  let evidence ← iterated record.body "evidence"
  let available ← evidence.mapM (availableDigest e)
  let assessment ← assessRecord record linked s.anchoredRecordIds available.reduceOption
  return some assessment

def provenanceGraph (s : Store) (recordId : PyStr) : Py (Option Graph) := do
  let some record := s.records.find? recordId | return none
  let graph ← buildProvenanceGraph record (Store.limited 10000000 s.records.rows)
    (s.linkedRecords recordId) s.anchoredRecordIds
  return some graph

def responsiblePublicationView (s : Store) (recordId : PyStr) (recognised : List PyStr)
    (coolingBlocks noticeProtectionBlocks : ℤ) : Py (Option Responsible.View) := do
  let some record := s.records.find? recordId | return none
  let linked := s.linkedRecords recordId
  let relatedIds := recordId :: linked.map Record.recordId
  let view ← assessResponsiblePublication record linked s.anchoredRecordIds
    (s.confirmedAnchorHeights relatedIds) (s.latestScannedBlock.map BlockRow.height) recognised
    coolingBlocks noticeProtectionBlocks
  return some view

def proofsForRecord (s : Store) (recordId : PyStr) : Py (List RecordProof) :=
  ((s.batchesForRecord recordId).filter (recordId ∈ ·.recordIds)).mapM fun batch => do
    let index := batch.recordIds.idxOf recordId
    let path ← Merkle.merkleProof batch.recordIds index
    return ⟨recordId, batch, index, path, s.anchors.rows.filter (·.batchId = batch.batchId)⟩

def recordView (s : Store) (e : EvidenceStore) (recordId : PyStr) (recognised : List PyStr)
    (coolingBlocks noticeProtectionBlocks : ℤ) : Py (Option RecordView) := do
  let some record := s.records.find? recordId | return none
  let assessment ← recordAssessment s e recordId
  let responsible ← responsiblePublicationView s recordId recognised coolingBlocks
    noticeProtectionBlocks
  let provenance ← provenanceGraph s recordId
  let proofs ← proofsForRecord s recordId
  return some {
    record := record
    classification := (assessment.map Assessment.classification).getD .unpublished
    assessment := assessment
    provenance := provenance
    responsiblePublication := responsible
    linkedRecords := s.linkedRecords recordId
    proofs := proofs }

end Service

namespace Record

/-- The field holds a list; null is accepted as well when a record is validated. -/
def Lists (r : Record) (field : PyStr) : Prop := r.body.get field ≠ some .null

theorem lists_cases (r : Record) (h : field ∈ ([ "sources", "evidence", "tags"] : List PyStr)) :
    r.body.get field = some .null ∨ r.body.get field = some (.arr (r.body.items field)) := by
  obtain ⟨fields, -, hobj, hf, -⟩ := Records.validateRecord_ok r.valid
  have hvalid := r.valid
  simp only [Records.validateRecord, Records.validateLists, bind_ok, exists_unit] at hvalid
  obtain ⟨-, -, -, -, ⟨sources, hs, evidence, he, tags, ht, -⟩, -⟩ := hvalid
  have hnormal : ∃ xs, Records.normalizeList (r.body.getD field .null) field = .ok xs := by
    simp only [List.mem_cons, List.not_mem_nil, or_false] at h
    rcases h with rfl | rfl | rfl
    · exact ⟨sources, hs⟩
    · exact ⟨evidence, he⟩
    · exact ⟨tags, ht⟩
  obtain ⟨xs, hxs⟩ := hnormal
  have hfield : field ∈ Records.recordFields := by
    simp only [List.mem_cons, List.not_mem_nil, or_false] at h
    rcases h with rfl | rfl | rfl <;> decide
  obtain ⟨x, hx⟩ := Json.get_of_hasFields hf hfield
  rw [← hobj] at hx
  rw [← Records.normalizeList_ok hxs] at hxs
  rw [Json.getD, hx, Option.getD_some] at hxs
  cases x with
  | null => exact Or.inl hx
  | arr ys => exact Or.inr (hx.trans (by rw [Except.ok.inj hxs]))
  | _ => exact (raise_ne_ok hxs).elim

theorem exists_iterated (h : field ∈ ([ "sources", "evidence", "tags"] : List PyStr)) :
    (∃ items, iterated r.body field = .ok items) ↔ r.Lists field := by
  rw [iterated, Json.getD, Lists]
  rcases r.lists_cases h with hx | hx
  · rw [hx]
    refine iff_of_false ?_ (not_not.mpr rfl)
    rintro ⟨_, h⟩
    cases h
  · rw [hx]
    refine iff_of_true ⟨_, rfl⟩ fun h => ?_
    cases h

theorem iterated_of_lists (h : field ∈ ([ "sources", "evidence", "tags"] : List PyStr))
    (hl : r.Lists field) : iterated r.body field = .ok (r.body.items field) := by
  rw [iterated, Json.getD, (r.lists_cases h).resolve_left hl]
  rfl

theorem evidence_digest {item : Json} (h : item ∈ r.body.items "evidence") :
    ∃ digest raw, item.getD "sha256" .null = .str digest ∧ IsDigest digest raw := by
  have hvalid := r.valid
  simp only [Records.validateRecord, Records.validateLists, bind_ok, exists_unit, forM_ok] at hvalid
  obtain ⟨-, -, -, -, ⟨-, -, evidence, he, -, -, -, -, -, -, hall⟩, -⟩ := hvalid
  have hitem := hall item (Records.normalizeList_ok he ▸ h)
  unfold Records.validateEvidence at hitem
  cases item with
  | obj fields =>
    simp only [bind_ok, require_ok, exists_unit] at hitem
    obtain ⟨-, digest, hd, -⟩ := hitem
    obtain ⟨hd, raw, hraw⟩ := requireDigest_ok.mp hd
    exact ⟨digest, raw, hd, hraw⟩
  | _ => exact (raise_ne_ok hitem).elim

theorem target_cases (r : Record) : r.body.get "target_record_id" = some .null ∨
    ∃ raw, r.body.get "target_record_id" = some (.str r.target) ∧ IsDigest r.target raw := by
  obtain ⟨fields, -, hobj, hf, -⟩ := Records.validateRecord_ok r.valid
  obtain ⟨x, hx⟩ := Json.get_of_hasFields hf (k := "target_record_id") (by decide)
  rw [← hobj] at hx
  have hvalid := r.valid
  simp only [Records.validateRecord, bind_ok, exists_unit] at hvalid
  obtain ⟨kind, -, -, htarget, -⟩ := hvalid
  unfold Records.validateTarget at htarget
  rw [Json.getD, hx, Option.getD_some] at htarget
  split_ifs at htarget
  · simp only [bind_ok] at htarget
    obtain ⟨target, hd, -⟩ := htarget
    obtain ⟨rfl, raw, hraw⟩ := requireDigest_ok.mp hd
    have htext : r.target = target := by rw [Record.target, Json.text, hx]
    exact Or.inr ⟨raw, htext ▸ hx, htext ▸ hraw⟩
  · cases x with
    | null => exact Or.inl hx
    | _ => exact (raise_ne_ok htarget).elim

theorem recordId_eq_hex (r : Record) : ∃ raw, raw.length = 32 ∧ r.recordId = hex raw := by
  obtain ⟨fields, id, -, -, hid, hc⟩ := Records.validateRecord_ok r.valid
  rw [Records.calculateRecordId, bind_ok] at hc
  obtain ⟨m, -, hm⟩ := hc
  refine ⟨sha256 m, length_sha256 m, ?_⟩
  rw [recordId, Json.text, hid]
  exact (Except.ok.inj hm).symm

def Targets (r t : Record) : Prop := fromHex r.target = fromHex t.recordId

end Record

theorem Store.mem_linkedRecords (h : r.Targets t) :
    r ∈ s.linkedRecords t.recordId ↔ r ∈ s.records ∧ r.target = lower r.target := by
  obtain ⟨raw, hlen, hid⟩ := t.recordId_eq_hex
  rw [Record.Targets, hid, fromHex_hex] at h
  rw [linkedRecords, List.mem_filter, Table.mem_def, Batches.eqStr_iff, Json.getD, hid]
  apply and_congr_right
  intro _
  rcases r.target_cases with hnull | ⟨raw', hget, hd⟩
  · have hnil : r.target = [] := by rw [Record.target, Json.text, hnull]
    rw [hnil] at h
    obtain rfl := Option.some.inj h
    cases hlen
  · obtain rfl := Option.some.inj (h.symm.trans hd.2.1)
    rw [hget, Option.getD_some, Json.str.injEq, lower_eq_hex hd.2.1 (by rw [hd.1, hlen])]

namespace Responsible

variable {linked : List Record} {anchored recognised : List PyStr} {heights : PyStr → Option ℤ}
  {chain : Option ℤ} {cooling notice : ℤ}

/-- The kinds with a list of their own in the context; attestations have none. -/
def listedKinds : List PyStr :=
  ["subject_response", "person_impact_notice", "restriction_notice", "withdrawal_notice",
   "legal_adjudication", "public_interest_justification", "dispute", "correction", "view_decision"]

def Context.entries (c : Context) : List Summary :=
  c.subjectResponses ++ (c.personImpactNotices ++ (c.restrictionNotices ++ (c.withdrawalNotices ++
    (c.legalAdjudications ++ (c.publicInterestJustifications ++ (c.disputes ++ (c.corrections ++
      c.viewDecisions.map Evaluation.toSummary)))))))

theorem summary_evaluateDecision {complete : Bool} {acc acc' : Decisions} {d : Record}
    (h : evaluateDecision anchored recognised complete acc d = .ok acc') :
    acc'.evaluations.map Evaluation.toSummary =
      acc.evaluations.map Evaluation.toSummary ++ [recordSummary d anchored] := by
  simp only [evaluateDecision, bind_ok] at h
  obtain ⟨tags, -, h⟩ := h
  have hadded : ∀ x : Evaluation, x.toSummary = recordSummary d anchored →
      (acc.evaluations ++ [x]).map Evaluation.toSummary =
        acc.evaluations.map Evaluation.toSummary ++ [recordSummary d anchored] := by
    intro x hx
    rw [List.map_append, List.map_singleton, hx]
  split at h
  · obtain rfl := Except.ok.inj h
    exact hadded _ rfl
  · split at h
    · obtain rfl := Except.ok.inj h
      exact hadded _ rfl
    · obtain rfl := Except.ok.inj h
      split_ifs <;> exact hadded _ rfl
    · obtain rfl := Except.ok.inj h
      exact hadded _ rfl

theorem summary_foldlM_evaluateDecision {complete : Bool} {ds : List Record}
    {acc acc' : Decisions}
    (h : ds.foldlM (evaluateDecision anchored recognised complete) acc = .ok acc') :
    acc'.evaluations.map Evaluation.toSummary =
      acc.evaluations.map Evaluation.toSummary ++ ds.map (recordSummary · anchored) := by
  induction ds generalizing acc with
  | nil =>
    obtain rfl := Except.ok.inj h
    rw [List.map_nil, List.append_nil]
  | cons d ds ih =>
    rw [List.foldlM_cons, bind_ok] at h
    obtain ⟨acc₁, hd, hds⟩ := h
    rw [ih hds, summary_evaluateDecision hd, List.map_cons, List.append_assoc,
      List.singleton_append]

theorem entries_of_ok {v : Responsible.View} (hv : assessResponsiblePublication r linked anchored
    heights chain recognised cooling notice = .ok v) : v.context.entries =
      listedKinds.flatMap fun kind => (ofKind linked kind).map (recordSummary · anchored) := by
  simp only [assessResponsiblePublication, bind_ok] at hv
  obtain ⟨impact, -, decisions, hdecisions, hv⟩ := hv
  obtain rfl := Except.ok.inj hv
  have hevaluated := summary_foldlM_evaluateDecision hdecisions
  rw [List.map_nil, List.nil_append] at hevaluated
  simp only [Context.entries, hevaluated, listedKinds, List.flatMap_cons, List.flatMap_nil,
    List.append_nil]

theorem mem_entries_iff {v : Responsible.View} (hv : assessResponsiblePublication t linked anchored
    heights chain recognised cooling notice = .ok v) (hr : r ∈ linked) (hk : r.kind ∈ contextKinds) :
    recordSummary r anchored ∈ v.context.entries ↔ r.kind ≠ "attestation" := by
  rw [entries_of_ok hv, List.mem_flatMap]
  constructor
  · rintro ⟨kind, hkind, hmem⟩ hatt
    obtain ⟨x, hx, he⟩ := List.mem_map.mp hmem
    have hxr : x.kind = r.kind := congrArg Summary.kind he
    have hxk := ((List.mem_filter.mp hx).2 : decide (x.kind = kind) = true)
    rw [decide_eq_true_iff] at hxk
    rw [← hxk, hxr, hatt] at hkind
    exact absurd hkind (by decide)
  · intro hatt
    have hlisted : ∀ kind ∈ contextKinds, kind ≠ ascii "attestation" → kind ∈ listedKinds := by
      decide
    exact ⟨r.kind, hlisted _ hk hatt, List.mem_map_of_mem ((mem_ofKind hk).mpr ⟨hr, rfl⟩)⟩

theorem exists_assess_iff : (∃ v, assessResponsiblePublication r linked anchored heights chain
    recognised cooling notice = .ok v) ↔
      r.Tagged ∧ ∀ d ∈ linked, d.kind = "view_decision" → d.Tagged := by
  constructor
  · rintro ⟨v, hv⟩
    simp only [assessResponsiblePublication, bind_ok] at hv
    obtain ⟨impact, himpact, decisions, hdecisions, -⟩ := hv
    refine ⟨Record.exists_declaredPersonImpact.mp ⟨impact, himpact⟩, fun d hd hk => ?_⟩
    exact (foldlM_evaluateDecision hdecisions).1 d ((mem_ofKind (by decide)).mpr ⟨hd, hk⟩)
  · rintro ⟨htagged, hdecisions⟩
    obtain ⟨impact, himpact⟩ := Record.exists_declaredPersonImpact.mpr htagged
    simp only [assessResponsiblePublication, himpact]
    rw [exists_bind_ok]
    refine ⟨impact, rfl, ?_⟩
    rw [exists_bind_ok]
    have hall : ∀ d ∈ ofKind linked "view_decision", d.Tagged := by
      intro d hd
      obtain ⟨hd, hk⟩ := (mem_ofKind (by decide)).mp hd
      exact hdecisions d hd hk
    exact (exists_foldlM_evaluateDecision hall).imp fun decisions hd => ⟨hd, _, rfl⟩

end Responsible

/-- The lists that the view of a stored record goes through are not null. -/
structure Store.Viewable (s : Store) (t : Record) : Prop where
  tags : t.Lists "tags"
  evidence : t.Lists "evidence"
  sources : t.Lists "sources"
  decisions : ∀ d ∈ s.linkedRecords t.recordId, d.kind = "view_decision" → d.Lists "tags"
  assertions : ∀ a ∈ s.linkedRecords t.recordId, a.kind = "provenance_assertion" →
    a.Lists "tags" ∧ a.Lists "sources"
  candidates : t.body.items "evidence" = [] ∨ ∀ c ∈ Store.limited 10000000 s.records.rows,
    c.recordId ≠ t.recordId → c.Lists "evidence"

namespace Provenance

theorem exists_overlay_iff {anchored : List PyStr} : (∃ o, overlay anchored r = .ok o) ↔
    r.Lists "tags" ∧ r.Lists "sources" := by
  have hfirst : ∀ tagPrefix, (∃ value, firstTag r.body tagPrefix = .ok value) ↔
      r.Lists "tags" := by
    intro tagPrefix
    rw [firstTag, exists_bind_ok, ← Record.exists_iterated (by decide)]
    exact exists_congr fun _ => and_iff_left ⟨_, rfl⟩
  have hruleset : (∃ value, ruleset r.body = .ok value) ↔ r.Lists "tags" := by
    rw [ruleset, exists_bind_ok, ← hfirst rulesetPrefix]
    exact exists_congr fun _ => and_iff_left ⟨_, rfl⟩
  have hconfidence : (∃ value, confidence r.body = .ok value) ↔ r.Lists "tags" := by
    rw [confidence, exists_bind_ok, ← hfirst confidencePrefix]
    exact exists_congr fun _ => and_iff_left ⟨_, rfl⟩
  simp only [overlay, exists_bind_ok]
  constructor
  · rintro ⟨value, hvalue, _, -, sources, hsources, -⟩
    exact ⟨hruleset.mp ⟨value, hvalue⟩, (Record.exists_iterated (by decide)).mp ⟨sources, hsources⟩⟩
  · rintro ⟨htags, hsources⟩
    obtain ⟨value, hvalue⟩ := hruleset.mpr htags
    obtain ⟨value', hvalue'⟩ := hconfidence.mpr htags
    obtain ⟨sources, hs⟩ := (Record.exists_iterated (by decide)).mpr hsources
    exact ⟨value, hvalue, value', hvalue', sources, hs, _, rfl⟩

theorem exists_exactMatches_iff {records : List Record} {recordId digest : PyStr} :
    (∃ m, exactMatches recordId records digest = .ok m) ↔
      ∀ c ∈ records, c.recordId ≠ recordId → c.Lists "evidence" := by
  have hcandidate : ∀ c : Record, (∃ x, (do
      let committed ← commitsTo c digest
      return (c.recordId, committed) : Py (PyStr × Bool)) = .ok x) ↔ c.Lists "evidence" := by
    intro c
    rw [exists_bind_ok, ← Record.exists_iterated (by decide)]
    constructor
    · rintro ⟨committed, hc, -⟩
      rw [commitsTo, bind_ok] at hc
      obtain ⟨items, hitems, -⟩ := hc
      exact ⟨items, hitems⟩
    · rintro ⟨items, hitems⟩
      exact ⟨_, by rw [commitsTo, hitems]; rfl, _, rfl⟩
  rw [exactMatches, exists_bind_ok]
  have hreturn : ∀ found : List (PyStr × Bool), ∃ m, (pure (digest,
      sortedSet ((found.filter Prod.snd).map Prod.fst)) : Py (PyStr × List PyStr)) = .ok m :=
    fun _ => ⟨_, rfl⟩
  simp only [hreturn, and_true, exists_mapM_ok, hcandidate, List.mem_filter, decide_eq_true_eq,
    and_imp]

omit [Ed25519] in
theorem sortedSet_map_eq_nil {α : Type} (f : α → PyStr) {xs : List α} :
    sortedSet (xs.map f) = [] ↔ xs = [] := by
  rw [sortedSet, Batches.sorted, ← List.length_eq_zero_iff, List.length_insertionSort,
    List.length_eq_zero_iff, List.dedup_eq_nil, List.map_eq_nil_iff]

theorem exists_buildProvenanceGraph_iff {records links : List Record} {anchored : List PyStr} :
    (∃ g, buildProvenanceGraph t records links anchored = .ok g) ↔
      t.Lists "evidence" ∧ t.Lists "sources" ∧
      (∀ a ∈ links, a.kind = "provenance_assertion" → a.Lists "tags" ∧ a.Lists "sources") ∧
      (t.body.items "evidence" = [] ∨
        ∀ c ∈ records, c.recordId ≠ t.recordId → c.Lists "evidence") := by
  have hmatches : (∃ m, (sortedSet ((t.body.items "evidence").map (Json.text · "sha256"))).mapM
      (exactMatches t.recordId records) = .ok m) ↔ (t.body.items "evidence" = [] ∨
        ∀ c ∈ records, c.recordId ≠ t.recordId → c.Lists "evidence") := by
    simp only [exists_mapM_ok, exists_exactMatches_iff, ← sortedSet_map_eq_nil (Json.text · "sha256")]
    cases sortedSet ((t.body.items "evidence").map (Json.text · "sha256")) with
    | nil => simp
    | cons d ds =>
      simp only [List.mem_cons, reduceCtorEq, false_or]
      exact ⟨fun h => h d (Or.inl rfl), fun h _ _ => h⟩
  have hoverlays : (∃ o, (links.filter (·.kind = ascii "provenance_assertion")).mapM
      (Provenance.overlay anchored) = .ok o) ↔
      ∀ a ∈ links, a.kind = "provenance_assertion" → a.Lists "tags" ∧ a.Lists "sources" := by
    simp only [exists_mapM_ok, exists_overlay_iff, List.mem_filter, decide_eq_true_eq, and_imp]
  rw [← hmatches, ← hoverlays]
  simp only [buildProvenanceGraph, exists_bind_ok]
  constructor
  · rintro ⟨evidence, hevidence, graph, hgraph, sources, hsources, overlays, hover, -⟩
    have hlists : t.Lists "evidence" :=
      (Record.exists_iterated (by decide)).mp ⟨evidence, hevidence⟩
    obtain rfl := Except.ok.inj ((Record.iterated_of_lists (by decide) hlists).symm.trans hevidence)
    exact ⟨hlists, (Record.exists_iterated (by decide)).mp ⟨sources, hsources⟩, ⟨overlays, hover⟩,
      ⟨graph, hgraph⟩⟩
  · rintro ⟨hevidence, hsources, ⟨overlays, hover⟩, ⟨graph, hgraph⟩⟩
    exact ⟨_, Record.iterated_of_lists (by decide) hevidence, graph, hgraph, _,
      Record.iterated_of_lists (by decide) hsources, overlays, hover, _, rfl⟩

end Provenance

namespace Service

variable {recognised : List PyStr} {cooling notice : ℤ}

omit [Ed25519] in
theorem exists_availableDigest {item : Json} {digest : PyStr} {raw : Bytes}
    (hi : item.getD "sha256" .null = .str digest) (hd : IsDigest digest raw) :
    ∃ x, availableDigest e item = .ok x := by
  have hname := EvidenceStore.validateDigest_of_isDigest hd
  have hhas : EvidenceStore.has e (.str digest) = .ok (e.find? (hex raw)).isSome := by
    rw [EvidenceStore.has, hname]
    rfl
  have hverify : EvidenceStore.verify e (.str digest) =
      .ok ((e.find? (hex raw)).any fun f => EvidenceStore.Intact f) := by
    rw [EvidenceStore.verify, hname]
    rfl
  simp only [availableDigest, hi]
  rw [hhas, exists_bind_ok]
  refine ⟨_, rfl, ?_⟩
  split_ifs
  · exact ⟨_, rfl⟩
  · rw [exists_bind_ok]
    exact ⟨_, hverify, _, rfl⟩

theorem find?_recordId (ht : t ∈ s.records) : s.records.find? t.recordId = some t :=
  Table.find?_eq_some.mpr ⟨ht, rfl⟩

theorem exists_recordAssessment_iff (ht : t ∈ s.records) :
    (∃ a, recordAssessment s e t.recordId = .ok a) ↔ t.Lists "evidence" := by
  rw [recordAssessment, find?_recordId ht]
  dsimp only
  rw [exists_bind_ok, ← Record.exists_iterated (by decide)]
  apply exists_congr
  intro evidence
  rw [and_iff_left_iff_imp]
  intro hevidence
  have hlists : t.Lists "evidence" := (Record.exists_iterated (by decide)).mp ⟨evidence, hevidence⟩
  obtain rfl := Except.ok.inj ((Record.iterated_of_lists (by decide) hlists).symm.trans hevidence)
  rw [exists_bind_ok]
  obtain ⟨available, ha⟩ := exists_mapM_ok.mpr fun item hitem => by
    obtain ⟨digest, raw, hi, hd⟩ := Record.evidence_digest hitem
    exact exists_availableDigest (e := e) hi hd
  refine ⟨available, ha, ?_⟩
  rw [exists_bind_ok, assessRecord, hevidence]
  exact ⟨_, rfl, _, rfl⟩

theorem exists_provenanceGraph_iff (ht : t ∈ s.records) :
    (∃ g, provenanceGraph s t.recordId = .ok g) ↔ t.Lists "evidence" ∧ t.Lists "sources" ∧
      (∀ a ∈ s.linkedRecords t.recordId, a.kind = "provenance_assertion" →
        a.Lists "tags" ∧ a.Lists "sources") ∧
      (t.body.items "evidence" = [] ∨ ∀ c ∈ Store.limited 10000000 s.records.rows,
        c.recordId ≠ t.recordId → c.Lists "evidence") := by
  rw [provenanceGraph, find?_recordId ht]
  dsimp only
  rw [exists_bind_ok]
  exact (exists_congr fun _ => and_iff_left ⟨_, rfl⟩).trans exists_buildProvenanceGraph_iff

theorem exists_responsiblePublicationView_iff (ht : t ∈ s.records) :
    (∃ v, responsiblePublicationView s t.recordId recognised cooling notice = .ok v) ↔
      t.Lists "tags" ∧
        ∀ d ∈ s.linkedRecords t.recordId, d.kind = "view_decision" → d.Lists "tags" := by
  rw [responsiblePublicationView, find?_recordId ht]
  dsimp only
  rw [exists_bind_ok]
  have hreturn : ∀ v : Responsible.View,
      ∃ o, (pure (some v) : Py (Option Responsible.View)) = .ok o := fun _ => ⟨_, rfl⟩
  simp only [hreturn, and_true]
  exact exists_assess_iff

theorem exists_proofsForRecord (recordId : PyStr) : ∃ ps, proofsForRecord s recordId = .ok ps := by
  rw [proofsForRecord, exists_mapM_ok]
  intro b hb
  rw [List.mem_filter, decide_eq_true_eq] at hb
  have hindex : b.recordIds.idxOf recordId < b.recordIds.length := List.idxOf_lt_length_of_mem hb.2
  obtain ⟨leaves, hleaves⟩ : ∃ leaves, b.recordIds.mapM Merkle.leaf = .ok leaves := by
    rw [exists_mapM_ok]
    intro id hid
    obtain ⟨raw, hd⟩ := b.facts.digests id hid
    exact ⟨raw, Merkle.leaf_ok.mpr hd.2⟩
  have hpath : Merkle.merkleProof b.recordIds (b.recordIds.idxOf recordId) =
      .ok ((Merkle.proofSteps leaves.length leaves (b.recordIds.idxOf recordId)).map
        Merkle.stepAsDict) := by
    rw [Merkle.merkleProof, bind_ok]
    exact ⟨(), require_ok.mpr hindex, by rw [hleaves]; rfl⟩
  dsimp only
  rw [hpath]
  exact ⟨_, rfl⟩

/-- The view of a stored record is produced exactly if no list that it goes through is null, and
then it holds the record's links and its responsible-publication view. -/
theorem exists_recordView_iff (ht : t ∈ s.records) :
    (∃ v, recordView s e t.recordId recognised cooling notice = .ok v) ↔ s.Viewable t := by
  rw [recordView, find?_recordId ht]
  dsimp only
  simp only [exists_bind_ok]
  constructor
  · rintro ⟨a, ha, p, hp, g, hg, -⟩
    have hassess := (exists_recordAssessment_iff ht).mp ⟨a, ha⟩
    obtain ⟨htags, hdecisions⟩ := (exists_responsiblePublicationView_iff ht).mp ⟨p, hp⟩
    obtain ⟨-, hsources, hassertions, hcandidates⟩ := (exists_provenanceGraph_iff ht).mp ⟨g, hg⟩
    exact ⟨htags, hassess, hsources, hdecisions, hassertions, hcandidates⟩
  · intro h
    obtain ⟨a, ha⟩ := (exists_recordAssessment_iff (e := e) ht).mpr h.evidence
    obtain ⟨p, hp⟩ := (@exists_responsiblePublicationView_iff _ s t recognised cooling notice
      ht).mpr ⟨h.tags, h.decisions⟩
    obtain ⟨g, hg⟩ := (exists_provenanceGraph_iff ht).mpr
      ⟨h.evidence, h.sources, h.assertions, h.candidates⟩
    obtain ⟨ps, hps⟩ := exists_proofsForRecord (s := s) t.recordId
    exact ⟨a, ha, p, hp, g, hg, ps, hps, _, rfl⟩

theorem recordView_fields (ht : t ∈ s.records) {v : Option RecordView}
    (hv : recordView s e t.recordId recognised cooling notice = .ok v) :
    ∃ w, v = some w ∧ w.record = t ∧ w.linkedRecords = s.linkedRecords t.recordId ∧
      responsiblePublicationView s t.recordId recognised cooling notice =
        .ok w.responsiblePublication := by
  rw [recordView, find?_recordId ht] at hv
  dsimp only at hv
  simp only [bind_ok] at hv
  obtain ⟨a, -, responsible, hresponsible, g, -, ps, -, hv⟩ := hv
  obtain rfl := Except.ok.inj hv
  exact ⟨_, rfl, rfl, rfl, hresponsible⟩

theorem recordView_of_ok (ht : t ∈ s.records) {v : Option RecordView}
    (hv : recordView s e t.recordId recognised cooling notice = .ok v) :
    ∃ w p, v = some w ∧ w.linkedRecords = s.linkedRecords t.recordId ∧
      w.responsiblePublication = some p ∧
      assessResponsiblePublication t (s.linkedRecords t.recordId) s.anchoredRecordIds
        (s.confirmedAnchorHeights
          (t.recordId :: (s.linkedRecords t.recordId).map Record.recordId))
        (s.latestScannedBlock.map BlockRow.height) recognised cooling notice = .ok p := by
  obtain ⟨w, rfl, -, hlinks, hresponsible⟩ := recordView_fields ht hv
  rw [responsiblePublicationView, find?_recordId ht] at hresponsible
  dsimp only at hresponsible
  rw [bind_ok] at hresponsible
  obtain ⟨p, hp, h⟩ := hresponsible
  exact ⟨w, p, rfl, hlinks, (Except.ok.inj h).symm, hp⟩

end Service

/-- The record is among the links of its target, in the target's view, and in the context there if
it is of a context kind. -/
structure Store.Shows (s : Store) (e : EvidenceStore) (recognised : List PyStr) (cooling notice : ℤ)
    (t r : Record) : Prop where
  linked : r ∈ s.linkedRecords t.recordId
  viewed : ∃ w, Service.recordView s e t.recordId recognised cooling notice = .ok (some w) ∧
    r ∈ w.linkedRecords ∧ (r.kind ∈ contextKinds → ∃ p, w.responsiblePublication = some p ∧
      recordSummary r s.anchoredRecordIds ∈ p.context.entries)

/-- The record spells its target in lower case, is no attestation, and has lists for lists. -/
structure Record.Plain (r : Record) : Prop where
  target : r.target = lower r.target
  kind : r.kind ≠ "attestation"
  lists : ∀ field ∈ ([ "sources", "evidence", "tags"] : List PyStr), r.Lists field

def StorageCall.Plain : ∀ ⦃β : Type⦄, StorageCall β → Prop
  | _, .addRecord r => r.Plain
  | _, _ => True

theorem Store.shows_iff {recognised : List PyStr} {cooling notice : ℤ} (ht : t ∈ s.records)
    (hr : r ∈ s.records) (h : r.Targets t) : s.Shows e recognised cooling notice t r ↔
      r.target = lower r.target ∧ r.kind ≠ "attestation" ∧ s.Viewable t := by
  constructor
  · rintro ⟨hlinked, w, hw, -, hcontext⟩
    refine ⟨((mem_linkedRecords h).mp hlinked).2, ?_, (Service.exists_recordView_iff ht).mp ⟨_, hw⟩⟩
    intro hatt
    have hkind : r.kind ∈ contextKinds := hatt ▸ (by decide)
    obtain ⟨w', p, he, -, hp, hassess⟩ := Service.recordView_of_ok ht hw
    obtain rfl := Option.some.inj he
    obtain ⟨p', hp', hmem⟩ := hcontext hkind
    obtain rfl := Option.some.inj (hp.symm.trans hp')
    exact (mem_entries_iff hassess hlinked hkind).mp hmem hatt
  · rintro ⟨hlower, hatt, hview⟩
    have hlinked := (mem_linkedRecords h).mpr ⟨hr, hlower⟩
    obtain ⟨v, hv⟩ := (@Service.exists_recordView_iff _ s e t recognised cooling notice ht).mpr hview
    obtain ⟨w, p, rfl, hlinks, hp, hassess⟩ := Service.recordView_of_ok ht hv
    exact ⟨hlinked, w, hv, hlinks ▸ hlinked, fun hkind =>
      ⟨p, hp, (mem_entries_iff hassess hlinked hkind).mpr hatt⟩⟩

theorem RestrictedRuns.plain (hs : RestrictedRuns StorageCall.Plain s) :
    ∀ r ∈ s.records, r.Plain := by
  apply hs.preserves (I := fun s => ∀ r ∈ s.records, r.Plain)
  · exact fun r hr => absurd hr Table.not_mem_empty
  · intro s β c hc hI r hr
    cases c with
    | addRecord new =>
      rcases Table.mem_insertIgnore.mp hr with hr | ⟨rfl, -⟩
      · exact hI r hr
      · exact hc
    | addBatch b =>
      simp only [Store.run, Store.records_addBatch] at hr
      exact hI r hr
    | addAnchor a =>
      simp only [Store.run, Store.records_addAnchor] at hr
      exact hI r hr
    | addScannedBlock row =>
      simp only [Store.run, Store.addScannedBlock] at hr
      split_ifs at hr <;> exact hI r hr
    | addCommitment row =>
      simp only [Store.run, Store.addCommitment] at hr
      split_ifs at hr <;> exact hI r hr
    | _ => exact hI r hr

theorem Store.viewable_of_plain (h : ∀ r ∈ s.records, r.Plain) (ht : t ∈ s.records) :
    s.Viewable t := by
  have hlists : ∀ r ∈ s.records, ∀ field ∈ ([ "sources", "evidence", "tags"] : List PyStr),
      r.Lists field := fun r hr => (h r hr).lists
  have hlinked : ∀ {id}, ∀ r ∈ s.linkedRecords id, r ∈ s.records := fun r hr =>
    (List.mem_filter.mp hr).1
  constructor
  · exact hlists t ht _ (by decide)
  · exact hlists t ht _ (by decide)
  · exact hlists t ht _ (by decide)
  · exact fun d hd _ => hlists d (hlinked d hd) _ (by decide)
  · exact fun a ha _ => ⟨hlists a (hlinked a ha) _ (by decide), hlists a (hlinked a ha) _ (by decide)⟩
  · refine Or.inr fun c hc _ => hlists c ?_ _ (by decide)
    unfold Store.limited at hc
    split_ifs at hc
    · exact hc
    · exact List.mem_of_mem_take hc

/-- In every store a link is shown exactly if it is spelled in lower case, is no attestation and its
target's view is produced; in a run that stores only plain records every link is shown. -/
theorem record_views_complete :
    (∀ (s : Store) (e : EvidenceStore) (recognised : List PyStr) (cooling notice : ℤ),
      ∀ t ∈ s.records, ∀ r ∈ s.records, r.Targets t →
        (s.Shows e recognised cooling notice t r ↔
          r.target = lower r.target ∧ r.kind ≠ "attestation" ∧ s.Viewable t)) ∧
    ∀ s : Store, RestrictedRuns StorageCall.Plain s →
      ∀ (e : EvidenceStore) (recognised : List PyStr) (cooling notice : ℤ),
        ∀ t ∈ s.records, ∀ r ∈ s.records, r.Targets t →
          s.Shows e recognised cooling notice t r := by
  constructor
  · exact fun s e recognised cooling notice t ht r hr h => Store.shows_iff ht hr h
  · intro s hs e recognised cooling notice t ht r hr h
    have hplain := hs.plain
    exact (Store.shows_iff ht hr h).mpr
      ⟨(hplain r hr).target, (hplain r hr).kind, Store.viewable_of_plain hplain ht⟩

end Context

section Witness

@[reducible] def linkKeys : Ed25519 := keyring samplePublicKey
  [(ascii "87759fb8110538181cdb362272d0f825ea7e28b17b042b36c0ce17c1f9019fc5", ascii
    "+qITooKwQRlSIELALYGVp7Qy82x0JwZ3FKOs1F71U42S78X5gWjAW24VLAMrmuxm9IBPgETwuYDZ1fEJB9xmDw=="),
   (ascii "5e7c6f6281ddf776a1de2ea7ab38ead786854871bf847762e91637be0f62274b", ascii
    "FxgdBSrvPTFsYOQ/7+zK950XHWh/vJuF77La7oK8BDbg1OnWdy+BKFPYrBPwlZdL/1zBxR43z2u8ET2jsT3VAA=="),
   (ascii "c3034d936419e13e2b8959495c6edf1ce5caf9d4da00916b5cae7faa24a02ff1", ascii
    "sL4rXfNHikWj1aWbOytRAR7+DX2KNLPiLbyYBR1W9NBOUGVyG+FNb6AIiDR7SDHIZkUcEuR4Vnqn/QWTIURBBQ==")]

attribute [local instance] linkKeys

def targetClaim : Record where
  body := sampleRecord (.int 1) "claim" .null (.arr [.str "hap:person-impact:none"])
    "+qITooKwQRlSIELALYGVp7Qy82x0JwZ3FKOs1F71U42S78X5gWjAW24VLAMrmuxm9IBPgETwuYDZ1fEJB9xmDw=="
    "ee8090f2561c04e94986db5aa987c0028c72b64a72a2c4484562dfab614ac2c9"
  valid := Records.sampleRecord_valid (by decide +kernel)

def lowerNotice : Record where
  body := sampleRecord (.int 1) "person_impact_notice"
    (.str "ee8090f2561c04e94986db5aa987c0028c72b64a72a2c4484562dfab614ac2c9")
    (.arr [.str "hap:person-impact:direct"])
    "FxgdBSrvPTFsYOQ/7+zK950XHWh/vJuF77La7oK8BDbg1OnWdy+BKFPYrBPwlZdL/1zBxR43z2u8ET2jsT3VAA=="
    "586ff124512e49965d9a55026bd7fff7e3a318c1eb79944c3a80f807e3ed0ffe"
  valid := Records.sampleRecord_valid (by decide +kernel)

def upperDispute : Record where
  body := sampleRecord (.int 1) "dispute"
    (.str "EE8090F2561C04E94986DB5AA987C0028C72B64A72A2C4484562DFAB614AC2C9") (.arr [])
    "sL4rXfNHikWj1aWbOytRAR7+DX2KNLPiLbyYBR1W9NBOUGVyG+FNb6AIiDR7SDHIZkUcEuR4Vnqn/QWTIURBBQ=="
    "41f5cf793098895648ba4c9e48a32e76e4a22be7ef9fc9527696a55905565246"
  valid := Records.sampleRecord_valid (by decide +kernel)

theorem submit_record_eval {s : Store} {r : Record} (hnew : s.records.find? r.recordId = none) :
    ((Operation.submitRecord r.body false Service.noPolicy).run.eval sampleOld.oracle s).2 =
      (s.run (.addRecord r)).2 := by
  have htarget : false = true → r.target = [] := nofun
  rw [Operation.eval_submitRecord hnew htarget]

def lowerStore : Store :=
  ((Store.empty.run (.addRecord targetClaim)).2.run (.addRecord lowerNotice)).2

def upperStore : Store :=
  ((Store.empty.run (.addRecord targetClaim)).2.run (.addRecord upperDispute)).2

theorem Record.plain_of_unhashable {r : Record} (ht : r.target = lower r.target)
    (hk : r.kind ≠ "attestation")
    (hl : ∀ field ∈ ([ "sources", "evidence", "tags"] : List PyStr),
      (r.body.getD field .null).hashable = false) : r.Plain := by
  refine ⟨ht, hk, fun field hfield hnull => ?_⟩
  have h := hl field hfield
  rw [Json.getD, hnull] at h
  cases h

theorem RestrictedRuns.submit {s : Store} {r : Record} (hs : RestrictedRuns StorageCall.Plain s)
    (hnew : s.records.find? r.recordId = none) (hr : r.Plain) :
    RestrictedRuns StorageCall.Plain (s.run (.addRecord r)).2 := by
  rw [← submit_record_eval hnew]
  apply hs.eval
  refine Calls.bind ?_ fun _ => calls_ret _
  apply Service.submitRecord_calls_of
  · intro recordId c hc
    cases hc
    exact trivial
  · intro hv c hc
    cases hc
    exact hr

theorem NodeRuns.submit {s : Store} {r : Record} (hs : NodeRuns s)
    (hnew : s.records.find? r.recordId = none) : NodeRuns (s.run (.addRecord r)).2 := by
  rw [← submit_record_eval hnew]
  exact .step _ _ hs (exec_eval (H := environment sampleOld.truthful)
    (sampleOld.obeys_oracle fun _ _ _ => rfl) _ _)

theorem lowerNotice_targets : lowerNotice.Targets targetClaim := by
  unfold Record.Targets
  decide +kernel

theorem upperDispute_targets : upperDispute.Targets targetClaim := by
  unfold Record.Targets
  decide +kernel

theorem record_views_complete_sample :
    (lowerStore.Shows .empty [] 6 6 targetClaim lowerNotice ↔
      lowerNotice.target = lower lowerNotice.target ∧ lowerNotice.kind ≠ "attestation" ∧
        lowerStore.Viewable targetClaim) ∧
    lowerStore.Shows .empty [] 6 6 targetClaim lowerNotice := by
  have ht : targetClaim ∈ lowerStore.records := List.mem_cons_self
  have hr : lowerNotice ∈ lowerStore.records := List.mem_cons_of_mem _ List.mem_cons_self
  have hclaim : targetClaim.Plain :=
    Record.plain_of_unhashable (by decide +kernel) (by decide +kernel) (by decide +kernel)
  have hnotice : lowerNotice.Plain :=
    Record.plain_of_unhashable (by decide +kernel) (by decide +kernel) (by decide +kernel)
  have hrun : RestrictedRuns StorageCall.Plain lowerStore :=
    (RestrictedRuns.empty.submit rfl hclaim).submit rfl hnotice
  exact ⟨record_views_complete.1 _ _ _ _ _ _ ht _ hr lowerNotice_targets,
    record_views_complete.2 _ hrun _ _ _ _ _ ht _ hr lowerNotice_targets⟩

/-- The dispute is stored and disputes the claim, but no view of the claim shows it. -/
theorem upper_case_link_hidden : NodeRuns upperStore ∧ targetClaim ∈ upperStore.records ∧
    upperDispute ∈ upperStore.records ∧ upperDispute.kind = "dispute" ∧
    upperDispute.Targets targetClaim ∧ upperStore.Viewable targetClaim ∧
    upperStore.linkedRecords targetClaim.recordId = [] := by
  refine ⟨(NodeRuns.empty.submit rfl).submit rfl, List.mem_cons_self,
    List.mem_cons_of_mem _ List.mem_cons_self, by decide +kernel, upperDispute_targets, ?_, rfl⟩
  have hlists : ∀ field ∈ ([ "sources", "evidence", "tags"] : List PyStr),
      targetClaim.Lists field :=
    (Record.plain_of_unhashable (by decide +kernel) (by decide +kernel) (by decide +kernel)).lists
  constructor
  · exact hlists _ (by decide)
  · exact hlists _ (by decide)
  · exact hlists _ (by decide)
  · exact fun d hd => absurd hd List.not_mem_nil
  · exact fun a ha => absurd ha List.not_mem_nil
  · exact Or.inl rfl

end Witness

end HistoryAnchor

import HistoryAnchor.Views.Context

/-! # Exact evidence matches

The graph compares digests as text, so it answers for their values only where the record
and its matches spell them alike.
-/

namespace HistoryAnchor

open Python

section Matches

variable [Ed25519] {r c : Record} {all linked : List Record} {anchored : List PyStr}
  {digest : PyStr} {raw : Bytes}

namespace Record

/-- An item of the record's evidence has the digest, spelled so. -/
def Spells (c : Record) (digest : PyStr) : Prop :=
  ∃ item ∈ c.body.items "evidence", item.getD "sha256" .null = .str digest

def Commits (c : Record) (raw : Bytes) : Prop := ∃ digest, c.Spells digest ∧ fromHex digest = some raw

theorem Spells.isDigest (h : c.Spells digest) : ∃ raw, IsDigest digest raw := by
  obtain ⟨item, hitem, he⟩ := h
  obtain ⟨digest', raw, he', hd⟩ := Record.evidence_digest hitem
  obtain rfl := Json.str.inj (he.symm.trans he')
  exact ⟨raw, hd⟩

theorem spells_iff : c.Spells digest ↔
    digest ∈ (c.body.items "evidence").map (Json.text · "sha256") := by
  rw [List.mem_map]
  apply exists_congr
  intro item
  rw [and_congr_right_iff]
  intro hitem
  obtain ⟨digest', raw, he, -⟩ := Record.evidence_digest hitem
  have htext : item.text "sha256" = digest' := by
    rw [Json.getD] at he
    rw [Json.text]
    cases hx : item.get "sha256" with
    | none => rw [hx] at he; cases he
    | some x =>
      rw [hx, Option.getD_some] at he
      rw [he]
  rw [he, htext, Json.str.injEq]

end Record

namespace Provenance

/-- The matches of the graph are those of the digests' values. -/
structure Exact (r : Record) (all : List Record) (g : Graph) : Prop where
  keys : ∀ entry ∈ g.exactEvidenceMatches, ∃ raw, fromHex entry.1 = some raw ∧ r.Commits raw
  distinct : (g.exactEvidenceMatches.map fun entry => fromHex entry.1).Nodup
  matched : ∀ raw, r.Commits raw → ∃ entry ∈ g.exactEvidenceMatches, fromHex entry.1 = some raw ∧
    ∀ id, id ∈ entry.2 ↔ ∃ c ∈ all, c.recordId ≠ r.recordId ∧ c.Commits raw ∧ c.recordId = id

/-- The record has one spelling of each digest, and every other record that commits to the digest
has that spelling too. -/
structure OneSpelling (r : Record) (all : List Record) : Prop where
  own : ∀ t t', r.Spells t → r.Spells t' → fromHex t = fromHex t' → t = t'
  others : ∀ c ∈ all, c.recordId ≠ r.recordId → ∀ t t', r.Spells t → c.Spells t' →
    fromHex t = fromHex t' → ∃ c' ∈ all, c'.recordId = c.recordId ∧ c'.Spells t

structure Built (r : Record) (all linked : List Record) : Prop where
  evidence : r.Lists "evidence"
  sources : r.Lists "sources"
  assertions : ∀ a ∈ linked, a.kind = "provenance_assertion" → a.Lists "tags" ∧ a.Lists "sources"
  candidates : r.body.items "evidence" = [] ∨
    ∀ c ∈ all, c.recordId ≠ r.recordId → c.Lists "evidence"

theorem built_iff : Built r all linked ↔
    ∃ g, buildProvenanceGraph r all linked anchored = .ok g := by
  rw [exists_buildProvenanceGraph_iff]
  constructor
  · exact fun h => ⟨h.evidence, h.sources, h.assertions, h.candidates⟩
  · exact fun ⟨he, hs, ha, hc⟩ => ⟨he, hs, ha, hc⟩

omit [Ed25519] in
theorem mem_sortedSet {xs : List PyStr} {x : PyStr} : x ∈ sortedSet xs ↔ x ∈ xs := by
  rw [sortedSet, Batches.sorted, List.mem_insertionSort, List.mem_dedup]

omit [Ed25519] in
theorem nodup_sortedSet (xs : List PyStr) : (sortedSet xs).Nodup := by
  rw [sortedSet, Batches.sorted]
  exact (List.perm_insertionSort _ _).nodup_iff.mpr (List.nodup_dedup _)

theorem commitsTo_ok {b : Bool} (h : commitsTo c digest = .ok b) :
    b = true ↔ c.Spells digest := by
  rw [commitsTo, bind_ok] at h
  obtain ⟨items, hitems, h⟩ := h
  have hlists : c.Lists "evidence" := (Record.exists_iterated (by decide)).mp ⟨items, hitems⟩
  obtain rfl := Except.ok.inj ((Record.iterated_of_lists (by decide) hlists).symm.trans hitems)
  obtain rfl := Except.ok.inj h
  simp only [List.any_eq_true, Batches.eqStr_iff, Record.Spells]

theorem exactMatches_ok {entry : PyStr × List PyStr}
    (h : exactMatches r.recordId all digest = .ok entry) : entry.1 = digest ∧
      ∀ id, id ∈ entry.2 ↔ ∃ c ∈ all, c.recordId ≠ r.recordId ∧ c.Spells digest ∧ c.recordId = id := by
  rw [exactMatches, bind_ok] at h
  obtain ⟨found, hfound, h⟩ := h
  obtain rfl := Except.ok.inj h
  refine ⟨rfl, fun id => ?_⟩
  rw [mem_sortedSet, List.mem_map]
  simp only [List.mem_filter, mem_of_mapM_ok hfound, decide_eq_true_eq]
  constructor
  · rintro ⟨⟨_, committed⟩, ⟨⟨c, ⟨hc, hne⟩, hx⟩, hcommitted⟩, rfl⟩
    obtain ⟨b, hb, hx⟩ := bind_ok.mp hx
    obtain ⟨rfl, rfl⟩ := Prod.mk.inj (Except.ok.inj hx)
    exact ⟨c, hc, hne, (commitsTo_ok hb).mp hcommitted, rfl⟩
  · rintro ⟨c, hc, hne, hspells, rfl⟩
    have hmem : c ∈ all.filter (·.recordId ≠ r.recordId) := by
      rw [List.mem_filter, decide_eq_true_iff]
      exact ⟨hc, hne⟩
    obtain ⟨y, hy⟩ := exists_mapM_ok.mp ⟨found, hfound⟩ c hmem
    obtain ⟨b, hb, -⟩ := bind_ok.mp hy
    obtain rfl := (commitsTo_ok hb).mpr hspells
    exact ⟨(c.recordId, true), ⟨⟨c, ⟨hc, hne⟩, bind_ok.mpr ⟨true, hb, rfl⟩⟩, rfl⟩, rfl⟩

theorem entries_of_ok {g : Graph} (h : buildProvenanceGraph r all linked anchored = .ok g) :
    (g.exactEvidenceMatches.map Prod.fst).Nodup ∧
      (∀ digest, digest ∈ g.exactEvidenceMatches.map Prod.fst ↔ r.Spells digest) ∧
      ∀ entry ∈ g.exactEvidenceMatches, ∀ id, id ∈ entry.2 ↔
        ∃ c ∈ all, c.recordId ≠ r.recordId ∧ c.Spells entry.1 ∧ c.recordId = id := by
  have hlists := (built_iff.mpr ⟨g, h⟩).evidence
  simp only [buildProvenanceGraph, bind_ok] at h
  obtain ⟨evidence, hevidence, entries, hentries, sources, -, overlays, -, h⟩ := h
  obtain rfl := Except.ok.inj ((Record.iterated_of_lists (by decide) hlists).symm.trans hevidence)
  obtain rfl := Except.ok.inj h
  have hkeys := map_of_mapM_ok hentries fun _ _ hx => (exactMatches_ok hx).1
  refine ⟨hkeys ▸ nodup_sortedSet _, fun digest => ?_, fun entry hentry => ?_⟩
  · rw [hkeys, mem_sortedSet, Record.spells_iff]
  · obtain ⟨digest, -, hx⟩ := (mem_of_mapM_ok hentries).mp hentry
    obtain ⟨rfl, hids⟩ := exactMatches_ok hx
    exact hids

/-- The graph that is built answers for the values exactly if each has one spelling. -/
theorem exact_iff {g : Graph} (h : buildProvenanceGraph r all linked anchored = .ok g) :
    Exact r all g ↔ OneSpelling r all := by
  obtain ⟨hnodup, hkeys, hids⟩ := entries_of_ok h
  have hvalue : (g.exactEvidenceMatches.map fun entry => fromHex entry.1) =
      (g.exactEvidenceMatches.map Prod.fst).map fromHex := by
    rw [List.map_map]
    rfl
  have hentry : ∀ {t}, r.Spells t → ∃ entry ∈ g.exactEvidenceMatches, entry.1 = t := by
    intro t ht
    exact List.mem_map.mp ((hkeys t).mpr ht)
  have hspells : ∀ entry ∈ g.exactEvidenceMatches, r.Spells entry.1 := by
    intro entry he
    exact (hkeys _).mp (List.mem_map_of_mem he)
  constructor
  · intro hex
    have hown : ∀ t t', r.Spells t → r.Spells t' → fromHex t = fromHex t' → t = t' := by
      intro t t' ht ht' he
      have hdistinct := hex.distinct
      rw [hvalue] at hdistinct
      exact List.inj_on_of_nodup_map hdistinct ((hkeys t).mpr ht) ((hkeys t').mpr ht') he
    refine ⟨hown, fun c hc hne t t' ht ht' he => ?_⟩
    obtain ⟨raw, -, hraw, -⟩ := ht.isDigest
    obtain ⟨entry, hmem, hentryRaw, hmatched⟩ := hex.matched raw ⟨t, ht, hraw⟩
    obtain rfl : entry.1 = t := hown _ _ (hspells entry hmem) ht (hentryRaw.trans hraw.symm)
    have hcommits : c.Commits raw := ⟨t', ht', he.symm.trans hraw⟩
    obtain ⟨c', hc', -, hs, hid⟩ :=
      (hids entry hmem _).mp ((hmatched c.recordId).mpr ⟨c, hc, hne, hcommits, rfl⟩)
    exact ⟨c', hc', hid, hs⟩
  · intro hone
    constructor
    · intro entry he
      obtain ⟨raw, -, hraw, -⟩ := (hspells entry he).isDigest
      exact ⟨raw, hraw, entry.1, hspells entry he, hraw⟩
    · rw [hvalue]
      apply hnodup.map_on
      intro t ht t' ht' he
      exact hone.own t t' ((hkeys t).mp ht) ((hkeys t').mp ht') he
    · rintro raw ⟨t, ht, hraw⟩
      obtain ⟨entry, he, rfl⟩ := hentry ht
      refine ⟨entry, he, hraw, fun id => ?_⟩
      rw [hids entry he]
      constructor
      · rintro ⟨c, hc, hne, hs, rfl⟩
        exact ⟨c, hc, hne, ⟨_, hs, hraw⟩, rfl⟩
      · rintro ⟨c, hc, hne, ⟨t', ht', hraw'⟩, rfl⟩
        obtain ⟨c', hc', hid, hs⟩ := hone.others c hc hne _ t' ht ht' (hraw.trans hraw'.symm)
        exact ⟨c', hc', hid ▸ hne, hs, hid⟩

/-- The graph is built and maps each digest value onto the other records that commit to it, exactly
if no list is null and each value has one spelling. -/
theorem exact_matches_iff :
    (∃ g, buildProvenanceGraph r all linked anchored = .ok g ∧ Exact r all g) ↔
      Built r all linked ∧ OneSpelling r all := by
  constructor
  · rintro ⟨g, hg, hex⟩
    exact ⟨built_iff.mpr ⟨g, hg⟩, (exact_iff hg).mp hex⟩
  · rintro ⟨hbuilt, hone⟩
    obtain ⟨g, hg⟩ := @built_iff _ r all linked anchored |>.mp hbuilt
    exact ⟨g, hg, (exact_iff hg).mpr hone⟩

end Provenance

end Matches

section Witness

@[reducible] def evidenceKeys : Ed25519 := keyring samplePublicKey
  [(ascii "de38a05a9d13bc6c3044e22805f44bc2b53958abc6ecd4015a9462b59d04f171", ascii
    "OTNg12qvHjYxikT/65kZNLCF9gH5z2jrmHTu1eT9/zpPjz0QGsw6bkh7wwKkZnSs/IPDOdRcIl+7Af0yuzzKBw=="),
   (ascii "e0fe451ac4d0df3c48229a669fddf7864fc54411b548fb59b77f3e078cf7d6eb", ascii
    "3DwHtA9ADBWLJOMmU4GlfzJYlzyMtHpPg4tTi8tvOK4yfhKMI5T5QRiYCtW/yiPk7i4lVCkzR1Au7trhIxjhCA==")]

attribute [local instance] evidenceKeys

def evidenceRecord (digest signature recordId : PyStr) : Json :=
  .obj [
    ("schema", .str "hap.record"), ("version", .int 1), ("kind", .str "claim"),
    ("created_at", .str "2026-07-19T10:00:00Z"), ("event_time", .null),
    ("author_id", .str "hap1187fc17d77ec0e3c6ec1cf6374b04d9594c9659a"),
    ("author_public_key", .str samplePublicKey), ("title", .str "Sample"),
    ("statement", .str "Signed sample."), ("target_record_id", .null), ("sources", .arr []),
    ("evidence", .arr [.obj [
      ("filename", .str "evidence.txt"), ("size", .int 12), ("mime_type", .str "text/plain"),
      ("sha256", .str digest), ("cid", .null)]]),
    ("tags", .arr []), ("signature", .str signature), ("record_id", .str recordId)]

theorem evidenceRecord_valid {digest signature recordId : PyStr}
    (hlists : Records.validateLists (evidenceRecord digest signature recordId) = .ok ())
    (hidentity : Records.validateIdentity (evidenceRecord digest signature recordId) true =
      .ok ()) :
    Records.validateRecord (evidenceRecord digest signature recordId) true = .ok () := by
  have htexts : Records.validateTexts (evidenceRecord digest signature recordId) =
      Records.validateTexts (sampleRecord (.int 1) "claim" .null .null signature recordId) := rfl
  simp only [Records.validateRecord, bind_ok, exists_unit]
  exact ⟨"claim", rfl, htexts.trans Records.sampleRecord_texts, rfl, hlists, hidentity⟩

def lowerEvidence : Record where
  body := evidenceRecord "a948904f2f0f479b8f8197694b30184b0d2ed1c1cd2a1ec0fb85d299a192a447"
    "OTNg12qvHjYxikT/65kZNLCF9gH5z2jrmHTu1eT9/zpPjz0QGsw6bkh7wwKkZnSs/IPDOdRcIl+7Af0yuzzKBw=="
    "39b1803b41e691c72386d2f1782a4e13cdf158196e59797ca51a8434a0d4280d"
  valid := evidenceRecord_valid (by decide +kernel)
    (Records.validateIdentity_of_identified rfl (by decide +kernel))

def upperEvidence : Record where
  body := evidenceRecord "A948904F2F0F479B8F8197694B30184B0D2ED1C1CD2A1EC0FB85D299A192A447"
    "3DwHtA9ADBWLJOMmU4GlfzJYlzyMtHpPg4tTi8tvOK4yfhKMI5T5QRiYCtW/yiPk7i4lVCkzR1Au7trhIxjhCA=="
    "d8035df50cdb2f2c00c147e50df0abc788c8259f7de057d41282814c9b0e2108"
  valid := evidenceRecord_valid (by decide +kernel)
    (Records.validateIdentity_of_identified rfl (by decide +kernel))

/-- Two records commit to the same file, and the graph does not match them. -/
theorem spelled_apart_unmatched :
    (∃ raw, lowerEvidence.Commits raw ∧ upperEvidence.Commits raw) ∧
    lowerEvidence.recordId ≠ upperEvidence.recordId ∧
    ∃ g, Provenance.buildProvenanceGraph lowerEvidence [lowerEvidence, upperEvidence] [] [] =
      .ok g ∧ g.exactEvidenceMatches =
        [(ascii "a948904f2f0f479b8f8197694b30184b0d2ed1c1cd2a1ec0fb85d299a192a447", [])] ∧
      ¬Provenance.Exact lowerEvidence [lowerEvidence, upperEvidence] g := by
  have hlower : lowerEvidence.Spells
      "a948904f2f0f479b8f8197694b30184b0d2ed1c1cd2a1ec0fb85d299a192a447" :=
    ⟨_, List.mem_singleton_self _, rfl⟩
  have hupper : upperEvidence.Spells
      "A948904F2F0F479B8F8197694B30184B0D2ED1C1CD2A1EC0FB85D299A192A447" :=
    ⟨_, List.mem_singleton_self _, rfl⟩
  have hsame : fromHex "A948904F2F0F479B8F8197694B30184B0D2ED1C1CD2A1EC0FB85D299A192A447" =
      fromHex "a948904f2f0f479b8f8197694b30184b0d2ed1c1cd2a1ec0fb85d299a192a447" := by
    decide +kernel
  obtain ⟨raw, -, hraw, -⟩ := hlower.isDigest
  have hcommits : upperEvidence.Commits raw := ⟨_, hupper, hsame.trans hraw⟩
  have hne : lowerEvidence.recordId ≠ upperEvidence.recordId := by decide +kernel
  refine ⟨⟨raw, ⟨_, hlower, hraw⟩, hcommits⟩, hne, _, rfl, rfl, fun hex => ?_⟩
  obtain ⟨entry, hentry, -, hmatched⟩ := hex.matched raw ⟨_, hlower, hraw⟩
  obtain rfl := List.mem_singleton.mp hentry
  have hlisted := (hmatched upperEvidence.recordId).mpr
    ⟨upperEvidence, List.mem_cons_of_mem _ (List.mem_singleton_self _), hne.symm, hcommits, rfl⟩
  exact List.not_mem_nil hlisted

end Witness

end HistoryAnchor

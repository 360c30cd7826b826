import HistoryAnchor.Exchange.Export
import HistoryAnchor.Publication.Membership
import HistoryAnchor.Views.Context

/-! # Bundles of stored records

`proof_bundle_for_record` puts a stored record together with its batches, fresh
membership proofs and every anchor known for these batches. Only the anchors can
keep the bundle from being made, accepted and verified.
-/

namespace HistoryAnchor

open Python Effects Prog Tables ProofBundles

section Bundles

variable [Ed25519] {s : Store} {r : Record} {p : RecordProof}

def RecordProof.json (p : RecordProof) : Json :=
  .obj [("schema", .str proofSchema), ("version", .int proofVersion),
    ("record_id", .str p.recordId), ("batch", p.batch.body), ("index", .int p.index),
    ("path", .arr p.path), ("anchors", .arr (p.anchors.map Anchor.json))]

namespace Service

def proofBundleForRecord (s : Store) (recordId : PyStr) : Py (Option Json) := do
  let some record := s.records.find? recordId | return none
  let proofs ← proofsForRecord s recordId
  let bundle ← createProofBundle record.body (proofs.map RecordProof.json)
  return some bundle

/-- What `verify_proof_bundle` reports. -/
structure BundleVerdict where
  bundleId : PyStr
  recordValid : Bool
  proofResults : List Checks
  allProofsValid : Bool

def verifyProofBundle (bundle : Json) : Py BundleVerdict := do
  validateProofBundleShape bundle
  let record := bundle.getD "record" .null
  let results ← (bundle.items "proofs").mapM fun proof => verifyPackage record (some proof)
  let recordOnly ← verifyPackage record none
  return {
    bundleId := bundle.text "bundle_id"
    recordValid := recordOnly.validStructure
    proofResults := results
    allProofsValid := results ≠ [] ∧ results.all Checks.validStructure }

end Service

/-- A proof that the verifier accepts, with anchors that can be encoded. -/
structure RecordProof.Good (r : Record) (p : RecordProof) : Prop where
  recordId : p.recordId = r.recordId
  dict : p.batch.body.WF
  index : p.index < p.batch.recordIds.length
  path : ∃ steps : List (MerkleTree.Step Bytes), p.path = steps.map Merkle.stepAsDict ∧
    steps.length ≤ 64 ∧ (∀ step ∈ steps, step.sibling.length = 32) ∧
    Merkle.verifyMerkleProof (.str r.recordId) (.arr p.path) (p.batch.body.text "merkle_root") =
      true
  anchors : ∀ a ∈ p.anchors, a.Portable

omit [Ed25519] in
theorem Batch.length_recordIds (b : Batch) : b.recordIds.length ≤ 50000 := by
  have h := b.valid
  simp only [Batches.validateBatch, bind_ok, exists_unit] at h
  obtain ⟨-, ids, hids, -⟩ := h
  rw [Json.getD, b.facts.recordIds, Option.getD_some] at hids
  unfold Batches.validateRecordIds at hids
  split at hids
  · rename_i x xs he
    simp only [bind_ok, require_ok, exists_unit] at hids
    have hlen := congrArg List.length (Json.arr.inj he)
    rw [List.length_map] at hlen
    rw [hlen]
    exact hids.1
  · exact (raise_ne_ok hids).elim

namespace Service

theorem good_of_listed {b : Batch} (hb : b ∈ s.batches) (hd : s.Dicts)
    (hr : r.recordId ∈ b.recordIds) (hanchors : ∀ a ∈ s.anchors, a.Portable) :
    ∃ path, Merkle.merkleProof b.recordIds (b.recordIds.idxOf r.recordId) = .ok path ∧
      RecordProof.Good r ⟨r.recordId, b, b.recordIds.idxOf r.recordId, path,
        s.anchors.rows.filter (·.batchId = b.batchId)⟩ := by
  have hi : b.recordIds.idxOf r.recordId < b.recordIds.length := List.idxOf_lt_length_of_mem hr
  have hf := b.facts
  obtain ⟨steps, root, hproof, hroot, hlen, h32, a, ha, hclimb⟩ :=
    Merkle.exists_merkleProof hf.digests hi
  rw [List.getElem_idxOf hi] at ha
  obtain ⟨root', hroot', hget⟩ := hf.root
  obtain rfl := Except.ok.inj (hroot.symm.trans hroot')
  refine ⟨steps.map Merkle.stepAsDict, hproof, rfl, hd.batches b hb, hi,
    ⟨steps, rfl, ?_, h32, ?_⟩, fun a ha => hanchors a (List.mem_filter.mp ha).1⟩
  · have hmax := b.length_recordIds
    have h16 : Nat.clog 2 b.recordIds.length ≤ 16 := Nat.clog_le_of_le_pow (by omega)
    omega
  · rw [Json.text, hget]
    exact Merkle.verifyMerkleProof_iff.mpr ⟨a, steps, ha, Merkle.readPath_stepsAsDict h32, hclimb⟩

theorem proofsForRecord_good (hd : s.Dicts) (hanchors : ∀ a ∈ s.anchors, a.Portable) :
    ∃ ps, proofsForRecord s r.recordId = .ok ps ∧ (∀ p ∈ ps, p.Good r) ∧
      ps.length = ((s.batchesForRecord r.recordId).filter (r.recordId ∈ ·.recordIds)).length := by
  set proofOf : Batch → RecordProof := fun b => ⟨r.recordId, b, b.recordIds.idxOf r.recordId,
    (Merkle.merkleProof b.recordIds (b.recordIds.idxOf r.recordId)).toOption.getD [],
    s.anchors.rows.filter (·.batchId = b.batchId)⟩ with hproofOf
  have hlisted : ∀ b ∈ (s.batchesForRecord r.recordId).filter (r.recordId ∈ ·.recordIds),
      b ∈ s.batches ∧ r.recordId ∈ b.recordIds := by
    intro b hb
    obtain ⟨hb, hr⟩ := List.mem_filter.mp hb
    exact ⟨(List.mem_filter.mp hb).1, of_decide_eq_true hr⟩
  refine ⟨_, Packages.mapM_ok (g := proofOf) fun b hb => ?_, ?_, List.length_map _⟩
  · obtain ⟨hm, hr⟩ := hlisted b hb
    obtain ⟨path, hpath, -⟩ := good_of_listed hm hd hr hanchors
    simp only [hproofOf, hpath]
    rfl
  · intro p hp
    obtain ⟨b, hb, rfl⟩ := List.mem_map.mp hp
    obtain ⟨hm, hr⟩ := hlisted b hb
    obtain ⟨path, hpath, hgood⟩ := good_of_listed hm hd hr hanchors
    simp only [hproofOf, hpath]
    exact hgood

end Service

theorem Record.isDigest_recordId (r : Record) : ∃ raw, IsDigest r.recordId raw := by
  obtain ⟨raw, hl, he⟩ := r.recordId_eq_hex
  refine ⟨raw, ?_, ?_, hl⟩
  · rw [he, length_hex, hl]
  · rw [he, fromHex_hex]

omit [Ed25519] in
theorem encodes_stepAsDict {step : MerkleTree.Step Bytes} {d : ℕ} (hd : d + 1 ≤ 32)
    (h : step.sibling.length = 32) : Encodes d (Merkle.stepAsDict step) := by
  have hsibling : IsDigest (hex step.sibling) step.sibling :=
    ⟨by rw [length_hex, h], fromHex_hex _, h⟩
  have hside : Encodable (Merkle.sideName step.side) := by
    cases step.side <;> exact encodable_of_all (by decide)
  apply Encodes.obj (by omega)
  · simp only [List.forall_mem_cons]
    exact ⟨encodable_of_all (by decide), encodable_of_all (by decide),
      fun _ h => absurd h List.not_mem_nil⟩
  · simp only [List.forall_mem_cons]
    exact ⟨.str (by omega) hsibling.encodable, .str (by omega) hside,
      fun _ h => absurd h List.not_mem_nil⟩

omit [Ed25519] in
theorem Anchor.shallow_json (a : Anchor) : Shallow 1 a.json := by
  simp only [Anchor.json, Shallow, List.forall_mem_cons]
  refine ⟨trivial, trivial, trivial, trivial, trivial, trivial, ?_, ?_,
    fun _ h => absurd h List.not_mem_nil⟩
  · cases a.blockHash <;> trivial
  · cases a.blockHeight <;> trivial

namespace RecordProof

theorem Good.encodes (h : p.Good r) : Encodes 2 p.json := by
  obtain ⟨raw, hraw⟩ := r.isDigest_recordId
  obtain ⟨steps, hpath, -, h32, -⟩ := h.path
  have hindex : (p.index : ℤ) ≤ Codec.maxSafeJsonInteger := by
    have hlt := h.index
    have hmax := p.batch.length_recordIds
    unfold Codec.maxSafeJsonInteger
    omega
  apply Encodes.obj (by omega)
  · simp only [List.forall_mem_cons]
    exact ⟨encodable_of_all (by decide), encodable_of_all (by decide),
      encodable_of_all (by decide), encodable_of_all (by decide), encodable_of_all (by decide),
      encodable_of_all (by decide), encodable_of_all (by decide),
      fun _ h => absurd h List.not_mem_nil⟩
  · simp only [List.forall_mem_cons]
    refine ⟨.str (by omega) (encodable_of_all (by decide)), .int (by omega) (by decide),
      .str (by omega) (h.recordId ▸ hraw.encodable),
      Batches.validateBatch_encodes p.batch.valid h.dict (by omega),
      .int (by omega) ⟨le_trans (by decide) (Int.natCast_nonneg _), hindex⟩, ?_, ?_,
      fun _ h => absurd h List.not_mem_nil⟩
    · refine .arr (by omega) fun x hx => ?_
      rw [hpath] at hx
      obtain ⟨step, hstep, rfl⟩ := List.mem_map.mp hx
      exact encodes_stepAsDict (by omega) (h32 step hstep)
    · refine .arr (by omega) fun x hx => ?_
      obtain ⟨a, ha, rfl⟩ := List.mem_map.mp hx
      exact (portable_iff.mp (h.anchors a ha)).2.move a.shallow_json (by omega)

theorem Good.validates (h : p.Good r) : validateProof r.recordId p.json = .ok () := by
  obtain ⟨steps, hpath, hlen, h32, -⟩ := h.path
  have hitems : (p.batch.body.items "record_ids").length = p.batch.recordIds.length :=
    (List.length_map _).symm
  rw [json, validateProof_iff, ← json]
  refine ⟨rfl, ⟨rfl, rfl⟩, decide_eq_true h.recordId, p.batch.valid,
    decide_eq_true (Int.natCast_nonneg p.index), ?_, ?_, ?_⟩
  · change (p.index : ℤ).toNat < (p.batch.body.items "record_ids").length
    rw [hitems, Int.toNat_natCast]
    exact h.index
  · change validatePath (.arr p.path) = .ok ()
    rw [hpath]
    exact validatePath_stepsAsDict hlen h32
  · refine validateAnchors_ok.mpr ⟨_, rfl, fun x hx => ?_⟩
    obtain ⟨a, ha, rfl⟩ := List.mem_map.mp hx
    exact (portable_iff.mp (h.anchors a ha)).1

theorem Good.verifies (h : p.Good r) :
    ∃ c, Service.verifyPackage r.body (some p.json) = .ok c ∧ c.validStructure = true := by
  obtain ⟨-, -, -, -, hverify⟩ := h.path
  apply Service.exists_verifyPackage (b := p.batch) rfl
  obtain ⟨_, id, -, -, hid, -⟩ := Records.validateRecord_ok r.valid
  have hrecordId : r.body.getD "record_id" (.str []) = .str r.recordId := by
    rw [Record.recordId, Json.text, Json.getD, hid]
    rfl
  rw [hrecordId]
  exact hverify

end RecordProof

theorem createProofBundle_good (hw : r.body.WF) {ps : List RecordProof}
    (hps : ∀ p ∈ ps, p.Good r) :
    ∃ bundle, createProofBundle r.body (ps.map RecordProof.json) = .ok bundle ∧
      validateProofBundleShape bundle = .ok () ∧ bundle.get "record" = some r.body ∧
      bundle.get "proofs" = some (.arr (ps.map RecordProof.json)) := by
  set members := bundleMembers r.body (ps.map RecordProof.json) with hmembers
  have hencodes : Encodes 0 (.obj members) := by
    apply Encodes.obj (by omega)
    · simp only [hmembers, bundleMembers, List.forall_mem_cons]
      exact ⟨encodable_of_all (by decide), encodable_of_all (by decide),
        encodable_of_all (by decide), encodable_of_all (by decide),
        fun _ h => absurd h List.not_mem_nil⟩
    · simp only [hmembers, bundleMembers, List.forall_mem_cons]
      refine ⟨.str (by omega) (encodable_of_all (by decide)), .int (by omega) (by decide),
        Records.validateRecord_encodes r.valid hw (by omega), .arr (by omega) fun x hx => ?_,
        fun _ h => absurd h List.not_mem_nil⟩
      obtain ⟨p, hp, rfl⟩ := List.mem_map.mp hx
      exact (hps p hp).encodes
  obtain ⟨bytes, hbytes⟩ := Codec.exists_canonicalJsonBytes_iff.mpr hencodes
  have hid : calculateProofBundleId (.obj members) = .ok (Codec.sha256Hex bytes) := by
    rw [calculateProofBundleId, show proofBundleBody (.obj members) = .obj members from rfl, hbytes]
    rfl
  set identity : List (PyStr × Json) := [("bundle_id", .str (Codec.sha256Hex bytes))]
    with hidentity
  have hid' : calculateProofBundleId (.obj (members ++ identity)) =
      .ok (Codec.sha256Hex bytes) := hid
  obtain ⟨fields, hr⟩ : ∃ fields, r.body = .obj fields := by
    obtain ⟨fields, -, hr, -⟩ := Records.validateRecord_ok r.valid
    exact ⟨fields, hr⟩
  refine ⟨.obj (members ++ identity), ?_, ?_, rfl, rfl⟩
  · simp only [createProofBundle, ← hmembers, hid]
    rfl
  · rw [validateProofBundleShape_iff]
    refine ⟨_, rfl, ⟨rfl, rfl⟩, ?_, r.valid, ?_, hid', decide_eq_true rfl⟩
    · rw [show (Json.obj (members ++ identity)).getD "record" .null = .obj fields from hr]
    · refine validateProofs_ok.mpr ⟨_, rfl, fun x hx => ?_⟩
      obtain ⟨p, hp, rfl⟩ := List.mem_map.mp hx
      exact (hps p hp).validates

theorem verifyProofBundle_good {bundle : Json} {ps : List RecordProof}
    (hshape : validateProofBundleShape bundle = .ok ()) (hrecord : bundle.get "record" = some r.body)
    (hproofs : bundle.get "proofs" = some (.arr (ps.map RecordProof.json)))
    (hps : ∀ p ∈ ps, p.Good r) :
    ∃ v, Service.verifyProofBundle bundle = .ok v ∧ v.recordValid = true ∧
      (ps ≠ [] → v.allProofsValid = true) := by
  have hbody : bundle.getD "record" .null = r.body := by rw [Json.getD, hrecord, Option.getD_some]
  have hitems : bundle.items "proofs" = ps.map RecordProof.json := by rw [Json.items, hproofs]
  obtain ⟨results, hresults, hlen, hall⟩ : ∃ results : List Service.Checks,
      (ps.map RecordProof.json).mapM (fun proof => Service.verifyPackage r.body (some proof)) =
        .ok results ∧ results.length = ps.length ∧ ∀ c ∈ results, c.validStructure = true := by
    clear hproofs hitems
    induction ps with
    | nil => exact ⟨[], rfl, rfl, fun _ h => absurd h List.not_mem_nil⟩
    | cons p ps ih =>
      rw [List.forall_mem_cons] at hps
      obtain ⟨c, hc, hvalid⟩ := hps.1.verifies
      obtain ⟨results, hresults, hlen, hall⟩ := ih hps.2
      refine ⟨c :: results, ?_, by rw [List.length_cons, List.length_cons, hlen],
        List.forall_mem_cons.mpr ⟨hvalid, hall⟩⟩
      rw [List.map_cons, List.mapM_cons, hc, hresults]
      rfl
  have honly : Service.verifyPackage r.body none =
      .ok ⟨true, true, none, none, none, none, none⟩ := by
    rw [Service.verifyPackage, Service.checkRecord_valid]
    rfl
  have hverdict : Service.verifyProofBundle bundle = .ok
      ⟨bundle.text "bundle_id", true, results,
        results ≠ [] ∧ results.all Service.Checks.validStructure⟩ := by
    simp only [Service.verifyProofBundle, hshape, hbody, hitems, hresults, honly]
    rfl
  refine ⟨_, hverdict, rfl, fun hne => ?_⟩
  have hne' : results ≠ [] := by
    rintro rfl
    exact hne (List.length_eq_zero_iff.mp hlen.symm)
  exact decide_eq_true ⟨hne', List.all_eq_true.mpr hall⟩

def Store.Indexed (s : Store) : Prop :=
  ∀ b ∈ s.batches, ∀ i ∈ b.recordIds, ∃ l ∈ s.recordBatches, l.recordId = i ∧ l.batchId = b.batchId

/-- Where all anchors are portable, the bundle of a stored record is made, accepted and verified. -/
theorem Store.bundle_usable (hd : s.Dicts) (hindexed : s.Indexed)
    (hanchors : ∀ a ∈ s.anchors, a.Portable) (hr : r ∈ s.records) :
    ∃ bundle v, Service.proofBundleForRecord s r.recordId = .ok (some bundle) ∧
      validateProofBundleShape bundle = .ok () ∧ Service.verifyProofBundle bundle = .ok v ∧
      v.recordValid = true ∧
      ((∃ b ∈ s.batches, r.recordId ∈ b.recordIds) → v.allProofsValid = true) := by
  obtain ⟨ps, hps, hgood, hlen⟩ := Service.proofsForRecord_good (r := r) hd hanchors
  obtain ⟨bundle, hcreate, hshape, hrecord, hproofs⟩ :=
    createProofBundle_good (hd.records r hr) hgood
  obtain ⟨v, hv, hvalid, hall⟩ := verifyProofBundle_good hshape hrecord hproofs hgood
  refine ⟨bundle, v, ?_, hshape, hv, hvalid, fun ⟨b, hb, hlisted⟩ => hall ?_⟩
  · have hfind : s.records.find? r.recordId = some r := Table.find?_eq_some.mpr ⟨hr, rfl⟩
    rw [Service.proofBundleForRecord, hfind]
    dsimp only
    rw [hps]
    exact congrArg (fun x : Py Json => x >>= fun bundle => pure (some bundle)) hcreate
  · rintro rfl
    obtain ⟨l, hl, hid, hbid⟩ := hindexed b hb _ hlisted
    have hmem : b ∈ (s.batchesForRecord r.recordId).filter (r.recordId ∈ ·.recordIds) := by
      refine List.mem_filter.mpr ⟨List.mem_filter.mpr ⟨hb, ?_⟩, decide_eq_true hlisted⟩
      exact List.any_eq_true.mpr ⟨l, hl, decide_eq_true ⟨hid, hbid⟩⟩
    rw [List.length_nil] at hlen
    rw [List.length_eq_zero_iff.mp hlen.symm] at hmem
    exact absurd hmem List.not_mem_nil

end Bundles

end HistoryAnchor

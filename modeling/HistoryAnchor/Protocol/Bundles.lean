import HistoryAnchor.Protocol.Snapshots

/-! # Proof bundles

A bundle carries a record with the proofs of its membership in batches and the
anchors known for them, all under its own hash.
-/

namespace HistoryAnchor

open Python

namespace ProofBundles

def proofBundleSchema : PyStr := "hap.proof-bundle"
def proofBundleVersion : ℤ := 1
def proofBundleFields : List PyStr := ["schema", "version", "record", "proofs", "bundle_id"]

def proofFields : List PyStr :=
  ["schema", "version", "record_id", "batch", "index", "path", "anchors"]

def proofStepFields : List PyStr := ["sibling", "side"]

def proofSchema : PyStr := "hap.proof"
def proofVersion : ℤ := 3

def proofBundleBody (bundle : Json) : Json := bundle.erase "bundle_id"

def calculateProofBundleId (bundle : Json) : Py PyStr := do
  return Codec.sha256Hex (← Codec.canonicalJsonBytes (proofBundleBody bundle))

def bundleMembers (record : Json) (proofs : List Json) : List (PyStr × Json) :=
  [("schema", .str proofBundleSchema), ("version", .int proofBundleVersion), ("record", record),
   ("proofs", .arr proofs)]

def createProofBundle (record : Json) (proofs : List Json) : Py Json := do
  let members := bundleMembers record proofs
  let bundleId ← calculateProofBundleId (.obj members)
  let identity : List (PyStr × Json) := [("bundle_id", .str bundleId)]
  return .obj (members ++ identity)

/-- `_validate_digest`: one text for every way in which a value is no digest. -/
def validateDigest (value : Json) (field : PyStr) : Py Unit :=
  match value with
  | .str s => do
    require (s.length = 64) .proofBundleError (field ++ " must be a 32-byte hexadecimal digest")
    match fromHex s with
    | none => raise .proofBundleError (field ++ " must be a 32-byte hexadecimal digest")
    | some raw =>
      require (raw.length = 32) .proofBundleError
        (field ++ " must be a 32-byte hexadecimal digest")
  | _ => raise .proofBundleError (field ++ " must be a 32-byte hexadecimal digest")

def validateStep (step : Json) : Py Unit :=
  match step with
  | .obj fields => do
    require (Json.hasFields fields proofStepFields) .proofBundleError
      "proof step fields do not match the schema"
    validateDigest (step.getD "sibling" .null) "proof sibling"
    let known ← memberOf (step.getD "side" .null) ["left", "right"]
    require (known = true) .proofBundleError "proof side must be left or right"
  | _ => raise .proofBundleError "proof step fields do not match the schema"

def validatePath (path : Json) : Py Unit :=
  match path with
  | .arr steps => do
    require (steps.length ≤ 64) .proofBundleError "proof path is invalid"
    forM steps validateStep
  | _ => raise .proofBundleError "proof path is invalid"

def validateAnchors (anchors : Json) : Py Unit :=
  match anchors with
  | .arr references => forM references Anchors.validateAnchorReference
  | _ => raise .proofBundleError "proof anchors must be a list"

def validateProof (recordId : PyStr) (proof : Json) : Py Unit :=
  match proof with
  | .obj fields => do
    require (Json.hasFields fields proofFields) .proofBundleError
      "proof fields do not match the versioned schema"
    require ((proof.getD "schema" .null).eqStr proofSchema ∧
      (proof.getD "version" .null).eqInt proofVersion) .proofBundleError
      "unsupported proof schema or version"
    require ((proof.getD "record_id" .null).eqStr recordId) .proofBundleError
      "proof record_id does not match bundle record"
    let batch := proof.getD "batch" .null
    Batches.validateBatch batch
    require ((proof.getD "index" .null).isNatural) .proofBundleError
      "proof index must be a non-negative integer"
    require (proof.nat "index" < (batch.items "record_ids").length) .proofBundleError
      "proof index is outside the batch"
    validatePath (proof.getD "path" .null)
    validateAnchors (proof.getD "anchors" .null)
  | _ => raise .proofBundleError "proof fields do not match the versioned schema"

def validateProofs (recordId : PyStr) (proofs : Json) : Py Unit :=
  match proofs with
  | .arr items => forM items (validateProof recordId)
  | _ => raise .proofBundleError "proofs must be a list"

def validateProofBundleShape [Ed25519] (bundle : Json) : Py Unit :=
  match bundle with
  | .obj fields => do
    require (Json.hasFields fields proofBundleFields) .proofBundleError
      "proof bundle fields do not match the versioned schema"
    require ((bundle.getD "schema" .null).eqStr proofBundleSchema ∧
      (bundle.getD "version" .null).eqInt proofBundleVersion) .proofBundleError
      "unsupported proof bundle schema or version"
    let record := bundle.getD "record" .null
    require (record matches .obj _) .proofBundleError "proof bundle record is required"
    Records.validateRecord record true
    validateProofs (record.text "record_id") (bundle.getD "proofs" .null)
    let calculated ← calculateProofBundleId bundle
    require ((bundle.getD "bundle_id" .null).eqStr calculated) .proofBundleError
      "bundle_id does not match proof bundle contents"
  | _ => raise .proofBundleError "proof bundle fields do not match the versioned schema"

theorem validateDigest_ok {value : Json} {field : PyStr} {u : Unit} :
    validateDigest value field = .ok u ↔ ∃ s raw, value = .str s ∧ IsDigest s raw := by
  unfold validateDigest IsDigest
  cases value with
  | str s =>
    simp only [bind_ok, require_ok, exists_unit, Json.str.injEq]
    cases hs : fromHex s with
    | none =>
      refine iff_of_false (fun h => raise_ne_ok h.2) ?_
      rintro ⟨_, raw, rfl, -, h, -⟩
      cases hs.symm.trans h
    | some raw =>
      simp only [require_ok]
      constructor
      · rintro ⟨hl, hr⟩
        exact ⟨s, raw, rfl, hl, hs, hr⟩
      · rintro ⟨_, raw', rfl, hl, hs', hr⟩
        obtain rfl := Option.some.inj (hs.symm.trans hs')
        exact ⟨hl, hr⟩
  | _ =>
    refine iff_of_false raise_ne_ok ?_
    rintro ⟨s, raw, h, -⟩
    cases h

theorem validateAnchors_ok {anchors : Json} {u : Unit} : validateAnchors anchors = .ok u ↔
    ∃ references, anchors = .arr references ∧
      ∀ a ∈ references, Anchors.validateAnchorReference a = .ok () := by
  cases anchors with
  | arr references =>
    simp only [validateAnchors, forM_ok, Json.arr.injEq]
    exact ⟨fun h => ⟨references, rfl, h⟩, fun ⟨_, he, h⟩ => he ▸ h⟩
  | _ =>
    refine iff_of_false raise_ne_ok ?_
    rintro ⟨references, h, -⟩
    cases h

theorem validateProofs_ok {recordId : PyStr} {proofs : Json} {u : Unit} :
    validateProofs recordId proofs = .ok u ↔
      ∃ items, proofs = .arr items ∧ ∀ p ∈ items, validateProof recordId p = .ok () := by
  cases proofs with
  | arr items =>
    simp only [validateProofs, forM_ok, Json.arr.injEq]
    exact ⟨fun h => ⟨items, rfl, h⟩, fun ⟨_, he, h⟩ => he ▸ h⟩
  | _ =>
    refine iff_of_false raise_ne_ok ?_
    rintro ⟨items, h, -⟩
    cases h

theorem validateProof_iff {recordId : PyStr} {fields : List (PyStr × Json)} :
    validateProof recordId (.obj fields) = .ok () ↔
      Json.hasFields fields proofFields = true ∧
      (((Json.obj fields).getD "schema" .null).eqStr proofSchema ∧
        ((Json.obj fields).getD "version" .null).eqInt proofVersion) ∧
      ((Json.obj fields).getD "record_id" .null).eqStr recordId ∧
      Batches.validateBatch ((Json.obj fields).getD "batch" .null) = .ok () ∧
      ((Json.obj fields).getD "index" .null).isNatural ∧
      (Json.obj fields).nat "index" <
        (((Json.obj fields).getD "batch" .null).items "record_ids").length ∧
      validatePath ((Json.obj fields).getD "path" .null) = .ok () ∧
      validateAnchors ((Json.obj fields).getD "anchors" .null) = .ok () := by
  simp only [validateProof, bind_ok, require_ok, exists_unit]

theorem validateProofBundleShape_iff [Ed25519] {fields : List (PyStr × Json)} :
    validateProofBundleShape (.obj fields) = .ok () ↔ ∃ id,
      Json.hasFields fields proofBundleFields = true ∧
      (((Json.obj fields).getD "schema" .null).eqStr proofBundleSchema ∧
        ((Json.obj fields).getD "version" .null).eqInt proofBundleVersion) ∧
      ((Json.obj fields).getD "record" .null matches .obj _) ∧
      Records.validateRecord ((Json.obj fields).getD "record" .null) true = .ok () ∧
      validateProofs (((Json.obj fields).getD "record" .null).text "record_id")
        ((Json.obj fields).getD "proofs" .null) = .ok () ∧
      calculateProofBundleId (.obj fields) = .ok id ∧
      ((Json.obj fields).getD "bundle_id" .null).eqStr id := by
  simp only [validateProofBundleShape, bind_ok, require_ok, exists_unit]
  constructor
  · rintro ⟨hf, hs, ho, hr, hp, id, hc, hid⟩
    exact ⟨id, hf, hs, ho, hr, hp, hc, hid⟩
  · rintro ⟨id, hf, hs, ho, hr, hp, hc, hid⟩
    exact ⟨hf, hs, ho, hr, hp, id, hc, hid⟩

end ProofBundles

end HistoryAnchor

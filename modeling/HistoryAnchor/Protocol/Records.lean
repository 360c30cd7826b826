import HistoryAnchor.Protocol.Codec
import HistoryAnchor.Python.Formats

/-! # Signed records

A record is validated field by field in the order of the source. What later
results use is that an accepted record has exactly the schema's fields and that
its `record_id` is the hash of the canonical bytes of everything else.
-/

namespace HistoryAnchor

open Python

/-- The signature scheme of the `cryptography` package: whether a public key and a signature are
well formed and the signature is one of the message. -/
class Ed25519 where
  verify : Bytes → Bytes → Bytes → Bool

namespace Crypto

def publicKeyToAuthorId (publicKeyHex : PyStr) : Py PyStr :=
  match fromHex publicKeyHex with
  | some raw => .ok ("hap1" ++ hex (blake2b raw 20))
  | none => raise .valueError "non-hexadecimal number found in fromhex() arg"

def verify [Ed25519] (publicKeyHex signatureB64 : PyStr) (message : Bytes) : Bool :=
  match fromHex publicKeyHex, b64decode signatureB64 with
  | some publicKey, some signature => Ed25519.verify publicKey signature message
  | _, _ => false

end Crypto

/-- A text that is a 32-byte hexadecimal digest; each validator has its own exception. -/
def requireDigest (type : ExcType) (value : Json) (field : PyStr) : Py PyStr :=
  match value with
  | .str s => do
    require (s.length = 64) type (field ++ " must be a 32-byte hexadecimal digest")
    match fromHex s with
    | none => raise type (field ++ " must be hexadecimal")
    | some raw =>
      require (raw.length = 32) type (field ++ " must be a 32-byte hexadecimal digest")
      return s
  | _ => raise type (field ++ " must be a 32-byte hexadecimal digest")

/-- `value in names` for a set of strings: an unhashable value raises. -/
def memberOf (value : Json) (names : List PyStr) : Py Bool :=
  match value with
  | .str s => .ok (s ∈ names)
  | .arr _ => raise .typeError "unhashable type: 'list'"
  | .obj _ => raise .typeError "unhashable type: 'dict'"
  | _ => .ok false

def IsDigest (s : PyStr) (raw : Bytes) : Prop :=
  s.length = 64 ∧ fromHex s = some raw ∧ raw.length = 32

theorem requireDigest_ok {type : ExcType} {value : Json} {field s : PyStr} :
    requireDigest type value field = .ok s ↔ value = .str s ∧ ∃ raw, IsDigest s raw := by
  unfold requireDigest IsDigest
  cases value with
  | str t =>
    simp only [bind_ok, require_ok, exists_unit, Json.str.injEq]
    cases hx : fromHex t with
    | none =>
      refine ⟨fun h => (raise_ne_ok h.2).elim, ?_⟩
      rintro ⟨rfl, raw, -, h, -⟩
      simp [hx] at h
    | some raw =>
      simp only [bind_ok, require_ok, exists_unit]
      constructor
      · rintro ⟨h₁, h₂, h₃⟩
        obtain rfl : t = s := Except.ok.inj h₃
        exact ⟨rfl, raw, h₁, hx, h₂⟩
      · rintro ⟨rfl, raw', h₁, h₂, h₃⟩
        rw [hx, Option.some.injEq] at h₂
        exact ⟨h₁, h₂ ▸ h₃, rfl⟩
  | _ =>
    refine iff_of_false raise_ne_ok fun h => ?_
    cases h.1

namespace Records

def targetKinds : List PyStr :=
  ["attestation", "dispute", "correction", "subject_response", "person_impact_notice",
   "restriction_notice", "withdrawal_notice", "legal_adjudication",
   "public_interest_justification", "view_decision", "provenance_assertion"]

def allowedKinds : List PyStr := "claim" :: targetKinds

def maxTitleChars := 240
def maxStatementChars := 100000
def maxSources := 32
def maxEvidenceItems := 64
def maxTags := 32

def recordFields : List PyStr :=
  ["schema", "version", "kind", "created_at", "event_time", "author_id", "author_public_key",
   "title", "statement", "target_record_id", "sources", "evidence", "tags", "signature",
   "record_id"]

def sourceFields : List PyStr := ["uri", "label"]

def evidenceFields : List PyStr := ["filename", "size", "mime_type", "sha256", "cid"]

def signingBody (record : Json) : Json := (record.erase "signature").erase "record_id"

def envelopeForId (record : Json) : Json := record.erase "record_id"

def calculateRecordId (record : Json) : Py PyStr := do
  return Codec.sha256Hex (← Codec.canonicalJsonBytes (envelopeForId record))

def validateCreatedAt (value : PyStr) : Py Unit :=
  match fromIsoFormat (replaceZ value "+00:00") with
  | none => raise .recordValidationError "created_at must be RFC 3339 / ISO 8601"
  | some tz => require (tz = true) .recordValidationError "created_at must include a timezone"

def normalizeList (value : Json) (field : PyStr) : Py (List Json) :=
  match value with
  | .null => .ok []
  | .arr xs => .ok xs
  | _ => raise .recordValidationError (field ++ " must be a list")

def requireText (record : Json) (field : PyStr) : Py Unit :=
  match record.getD field .null with
  | .str s => require (strip s ≠ []) .recordValidationError (field ++ " is required")
  | _ => raise .recordValidationError (field ++ " is required")

/-- Null or a string of at most `n` characters. -/
def shortOrNull (value : Json) (n : ℕ) : Bool :=
  match value with
  | .null => true
  | .str s => s.length ≤ n
  | _ => false

/-- A string of at least one and at most `n` characters. -/
def shortText (value : Json) (n : ℕ) : Bool :=
  match value with
  | .str s => s ≠ [] && s.length ≤ n
  | _ => false

def validateSource (source : Json) : Py Unit := do
  match source with
  | .obj fields =>
    require (Json.hasFields fields sourceFields) .recordValidationError
      "source fields do not match the versioned schema"
    let uri := source.text "uri"
    require (uri ≠ []) .recordValidationError "each source requires a non-empty uri"
    require (uri.length ≤ 2048) .recordValidationError "source uri is too long"
    require (shortOrNull (source.getD "label" .null) 240) .recordValidationError
      "source label is invalid"
  | _ => raise .recordValidationError "source fields do not match the versioned schema"

def validateEvidence (item : Json) : Py Unit := do
  match item with
  | .obj fields =>
    require (Json.hasFields fields evidenceFields) .recordValidationError
      "evidence fields do not match the versioned schema"
    let _ ← requireDigest .recordValidationError (item.getD "sha256" .null) "evidence sha256"
    require (shortText (item.getD "filename" .null) 255) .recordValidationError
      "evidence filename is invalid"
    require ((item.getD "size" .null).isNatural) .recordValidationError
      "evidence size must be a non-negative integer"
    require (shortOrNull (item.getD "mime_type" .null) 255) .recordValidationError
      "evidence mime_type is invalid"
    require (shortOrNull (item.getD "cid" .null) 512) .recordValidationError
      "evidence cid is invalid"
  | _ => raise .recordValidationError "evidence fields do not match the versioned schema"

def validateHeader (record : Json) : Py PyStr := do
  match record with
  | .obj fields =>
    require (Json.hasFields fields recordFields) .recordValidationError
      "record fields do not match the versioned schema"
    require ((record.getD "schema" .null).eqStr "hap.record") .recordValidationError
      "unsupported record schema"
    require ((record.getD "version" .null).eqInt 1) .recordValidationError
      "unsupported record version"
    let known ← memberOf (record.getD "kind" .null) allowedKinds
    require (known = true) .recordValidationError "invalid record kind"
    return record.text "kind"
  | _ => raise .recordValidationError "record fields do not match the versioned schema"

def validateTexts (record : Json) : Py Unit := do
  forM (["created_at", "author_id", "author_public_key", "title", "statement"] : List PyStr)
    (requireText record)
  let createdAt := record.text "created_at"
  require (createdAt.length ≤ 64) .recordValidationError "created_at is too long"
  validateCreatedAt createdAt
  require (shortOrNull (record.getD "event_time" .null) 512) .recordValidationError
    "event_time must be null or a string of 512 characters or fewer"
  require ((record.text "title").length ≤ maxTitleChars) .recordValidationError
    "title must be 240 characters or fewer"
  require ((record.text "statement").length ≤ maxStatementChars) .recordValidationError
    "statement is too large"
  let publicKey := record.text "author_public_key"
  require (publicKey.length = 64) .recordValidationError
    "author_public_key must be a 32-byte Ed25519 public key"
  require (fromHex publicKey ≠ none) .recordValidationError "author_public_key must be hexadecimal"
  let expectedAuthor ← Crypto.publicKeyToAuthorId publicKey
  require (expectedAuthor = record.text "author_id") .recordValidationError
    "author_id does not match public key"

def validateTarget (kind : PyStr) (target : Json) : Py Unit := do
  if kind ∈ targetKinds then
    let _ ← requireDigest .recordValidationError target "target_record_id"
  else
    match target with
    | .null => return ()
    | _ => raise .recordValidationError "claim records cannot target another record"

def validateLists (record : Json) : Py Unit := do
  let sources ← normalizeList (record.getD "sources" .null) "sources"
  let evidence ← normalizeList (record.getD "evidence" .null) "evidence"
  let tags ← normalizeList (record.getD "tags" .null) "tags"
  require (sources.length ≤ maxSources) .recordValidationError
    "a record may contain at most 32 sources"
  require (evidence.length ≤ maxEvidenceItems) .recordValidationError
    "a record may contain at most 64 evidence entries"
  require (tags.length ≤ maxTags ∧ tags.all (shortText · 64)) .recordValidationError "invalid tags"
  forM sources validateSource
  forM evidence validateEvidence

def requireSignature (signature : Json) : Py PyStr := do
  match signature with
  | .str s =>
    require (s.length ≤ 256) .recordValidationError "signature is required"
    return s
  | _ => raise .recordValidationError "signature is required"

def validateIdentity [Ed25519] (record : Json) (verifySignature : Bool) : Py Unit := do
  let signature ← requireSignature (record.getD "signature" .null)
  let recordId ← requireDigest .recordValidationError (record.getD "record_id" .null) "record_id"
  let calculated ← calculateRecordId record
  require (calculated = recordId) .recordValidationError "record_id does not match record contents"
  if verifySignature then
    let message ← Codec.canonicalJsonBytes (signingBody record)
    require (Crypto.verify (record.text "author_public_key") signature message)
      .recordValidationError "invalid record signature"

def validateRecord [Ed25519] (record : Json) (verifySignature : Bool) : Py Unit := do
  let kind ← validateHeader record
  validateTexts record
  validateTarget kind (record.getD "target_record_id" .null)
  validateLists record
  validateIdentity record verifySignature

theorem requireText_str {record : Json} {field s : PyStr}
    (hget : record.getD field .null = .str s) (hs : strip s ≠ []) :
    requireText record field = .ok () := by
  unfold requireText
  rw [hget]
  exact require_ok.mpr hs

theorem validateHeader_ok {record : Json} {kind : PyStr} (h : validateHeader record = .ok kind) :
    (∃ fields, record = .obj fields ∧ Json.hasFields fields recordFields = true) ∧
      record.get "kind" = some (.str kind) ∧ kind ∈ allowedKinds := by
  cases record with
  | obj fields =>
    simp only [validateHeader, bind_ok, require_ok, exists_unit] at h
    obtain ⟨hf, -, -, known, hk, rfl, h⟩ := h
    refine ⟨⟨fields, rfl, hf⟩, ?_⟩
    have hkind : kind = Json.text (.obj fields) "kind" := (Except.ok.inj h).symm
    unfold Json.getD at hk
    cases hg : (Json.obj fields).get "kind" with
    | none => simp [hg, memberOf] at hk
    | some v =>
      simp only [hg, Option.getD_some] at hk
      cases v with
      | str s =>
        simp only [Json.text, hg] at hkind
        subst hkind
        exact ⟨rfl, by simpa [memberOf] using hk⟩
      | arr | obj => exact (raise_ne_ok hk).elim
      | _ => simp [memberOf] at hk
  | _ => exact (raise_ne_ok h).elim

variable [Ed25519]

/-- An accepted record has the fields of the schema, and its identifier is its hash. -/
theorem validateRecord_ok {record : Json} {verifySignature : Bool}
    (h : validateRecord record verifySignature = .ok ()) :
    ∃ fields id, record = .obj fields ∧ Json.hasFields fields recordFields = true ∧
      record.get "record_id" = some (.str id) ∧ calculateRecordId record = .ok id := by
  simp only [validateRecord, bind_ok, exists_unit] at h
  obtain ⟨kind, hkind, -, -, -, h⟩ := h
  obtain ⟨⟨fields, rfl, hf⟩, -⟩ := validateHeader_ok hkind
  simp only [validateIdentity, bind_ok, require_ok, exists_unit] at h
  obtain ⟨_, -, id, hid, calculated, hc, rfl, -⟩ := h
  obtain ⟨x, hx⟩ := Json.get_of_hasFields hf (k := "record_id") (by decide)
  rw [requireDigest_ok, Json.getD, hx, Option.getD_some] at hid
  exact ⟨fields, calculated, rfl, hf, by rw [hx, hid.1], hc⟩

end Records

section Conformance

@[reducible] def conformanceKeys : Ed25519 where
  verify publicKey signature _ :=
    some publicKey =
        fromHex "03a107bff3ce10be1d70dd18e74bc09967e4d6309ba50d5f1ddc8664125531b8" ∧
      some signature = b64decode
        "ltlzuxFE0z9Vlpqx5msbMxOXi0PWkB3IV6UxCE2OHFPFKe24IWT+K3saRvn0AxiMGIP3c8IZ/ukhPoluRqDFBw=="

def conformanceSource : Json :=
  .obj [("uri", .str "https://example.org/conformance"), ("label", .str "Conformance source")]

def conformanceEvidence : Json :=
  .obj [
    ("filename", .str "evidence.txt"), ("size", .int 12), ("mime_type", .str "text/plain"),
    ("sha256", .str "a948904f2f0f479b8f8197694b30184b0d2ed1c1cd2a1ec0fb85d299a192a447"),
    ("cid", .null)]

def conformanceRecord : Json :=
  .obj [
    ("schema", .str "hap.record"), ("version", .int 1), ("kind", .str "claim"),
    ("created_at", .str "2026-07-18T20:01:00Z"), ("event_time", .str "2026-07-18T20:00:00Z"),
    ("author_id", .str "hap1f0a594d2978da8803f696325ea0aaa5045cf2e94"),
    ("author_public_key",
      .str "03a107bff3ce10be1d70dd18e74bc09967e4d6309ba50d5f1ddc8664125531b8"),
    ("title", .str "HAP conformance event"),
    ("statement",
      .str "This deterministic record exists solely as a cross-implementation test vector."),
    ("target_record_id", .null), ("sources", .arr [conformanceSource]),
    ("evidence", .arr [conformanceEvidence]),
    ("tags", .arr [.str "conformance", .str "test-only"]),
    ("signature", .str
      "ltlzuxFE0z9Vlpqx5msbMxOXi0PWkB3IV6UxCE2OHFPFKe24IWT+K3saRvn0AxiMGIP3c8IZ/ukhPoluRqDFBw=="),
    ("record_id", .str "fe4fd10287faaea0736fe25fb849264527c0387bc8968786a9c19d8fa5aefeb5")]

theorem conformanceRecord_valid :
    @Records.validateRecord conformanceKeys conformanceRecord true = .ok () := by
  simp only [Records.validateRecord, Records.validateIdentity, Records.calculateRecordId,
    Codec.sha256Hex, sha256_eq_words]
  decide +kernel

/-- One key with the signatures that it has made, each under the hash of its message. -/
@[reducible] def keyring (publicKeyHex : PyStr) (signatures : List (PyStr × PyStr)) : Ed25519 where
  verify publicKey signature message :=
    some publicKey = fromHex publicKeyHex ∧ (hex (sha256 message), some signature) ∈
      signatures.map fun (digest, signatureB64) => (digest, b64decode signatureB64)

def samplePublicKey : PyStr := "79b5562e8fe654f94078b112e8a98ba7901f853ae695bed7e0e3910bad049664"

def sampleRecord (version : Json) (kind : PyStr) (target tags : Json)
    (signature recordId : PyStr) : Json :=
  .obj [
    ("schema", .str "hap.record"), ("version", version), ("kind", .str kind),
    ("created_at", .str "2026-07-19T10:00:00Z"), ("event_time", .null),
    ("author_id", .str "hap1187fc17d77ec0e3c6ec1cf6374b04d9594c9659a"),
    ("author_public_key", .str samplePublicKey), ("title", .str "Sample"),
    ("statement", .str "Signed sample."), ("target_record_id", target), ("sources", .arr []),
    ("evidence", .arr []), ("tags", tags), ("signature", .str signature),
    ("record_id", .str recordId)]

namespace Records

theorem samplePublicKey_author : Crypto.publicKeyToAuthorId samplePublicKey =
    .ok "hap1187fc17d77ec0e3c6ec1cf6374b04d9594c9659a" := by
  decide +kernel

theorem samplePublicKey_hex : samplePublicKey.length = 64 ∧ fromHex samplePublicKey ≠ none := by
  decide +kernel

theorem sampleTime_valid : (ascii "2026-07-19T10:00:00Z").length ≤ 64 ∧
    validateCreatedAt "2026-07-19T10:00:00Z" = .ok () := by
  decide +kernel

/-- The identity of a record under a key ring, with its hashes computed word by word. -/
def identified (signatures : List (PyStr × PyStr)) (record : Json) : Bool :=
  match record.getD "signature" .null, record.getD "record_id" .null,
    Codec.canonicalJsonBytes (envelopeForId record),
    Codec.canonicalJsonBytes (signingBody record) with
  | .str signature, .str recordId, .ok envelope, .ok message =>
    decide (signature.length ≤ 256) && decide (hex (sha256Words envelope) = recordId) &&
      (b64decode signature).isSome && decide ((hex (sha256Words message), b64decode signature) ∈
        signatures.map fun (digest, signatureB64) => (digest, b64decode signatureB64))
  | _, _, _, _ => false

theorem validateIdentity_of_identified {signatures : List (PyStr × PyStr)} {record : Json}
    (hkey : record.text "author_public_key" = samplePublicKey)
    (h : identified signatures record = true) :
    @validateIdentity (keyring samplePublicKey signatures) record true = .ok () := by
  obtain ⟨publicKey, hpublicKey⟩ := Option.ne_none_iff_exists'.mp samplePublicKey_hex.2
  unfold identified at h
  split at h
  · next signature recordId envelope message hsignature hid henvelope hmessage =>
    simp only [Bool.and_eq_true, decide_eq_true_eq, Option.isSome_iff_exists] at h
    obtain ⟨⟨⟨hlength, rfl⟩, raw, hraw⟩, hmem⟩ := h
    have hdigest : requireDigest .recordValidationError (.str (hex (sha256Words envelope)))
        "record_id" = .ok (hex (sha256Words envelope)) := by
      rw [← sha256_eq_words]
      exact requireDigest_ok.mpr ⟨rfl, sha256 envelope, by rw [length_hex, length_sha256],
        fromHex_hex _, length_sha256 _⟩
    have hcalculated : calculateRecordId record = .ok (hex (sha256Words envelope)) := by
      rw [calculateRecordId, henvelope, ← sha256_eq_words]
      rfl
    have hverify : @Crypto.verify (keyring samplePublicKey signatures) samplePublicKey signature
        message = true := by
      simp only [Crypto.verify, hpublicKey, hraw]
      rw [← sha256_eq_words, hraw] at hmem
      exact decide_eq_true ⟨hpublicKey.symm, hmem⟩
    simp only [validateIdentity, bind_ok, require_ok, exists_unit, if_true, hsignature, hid]
    exact ⟨signature, bind_ok.mpr ⟨(), require_ok.mpr hlength, rfl⟩, _, hdigest, _, hcalculated, rfl,
      message, hmessage, hkey ▸ hverify⟩
  · cases h

theorem sampleRecord_texts {version target tags : Json} {kind signature recordId : PyStr} :
    validateTexts (sampleRecord version kind target tags signature recordId) = .ok () := by
  have htitle : (ascii "Sample").length ≤ maxTitleChars := by decide
  have hstatement : (ascii "Signed sample.").length ≤ maxStatementChars := by decide
  simp only [validateTexts, bind_ok, require_ok, exists_unit, forM_ok, List.forall_mem_cons]
  exact ⟨⟨requireText_str rfl (by decide), requireText_str rfl (by decide),
    requireText_str rfl (by decide), requireText_str rfl (by decide),
    requireText_str rfl (by decide), fun _ h => absurd h List.not_mem_nil⟩, sampleTime_valid.1,
    sampleTime_valid.2, rfl, htitle, hstatement, samplePublicKey_hex.1, samplePublicKey_hex.2, _, samplePublicKey_author, rfl⟩

/-- The checks of a sample record that depend on the fields that vary. -/
def sampleChecked (signatures : List (PyStr × PyStr)) (version : Json) (kind : PyStr)
    (target tags : Json) (signature recordId : PyStr) : Bool :=
  version.eqInt 1 && decide (kind ∈ allowedKinds) && decide (validateTarget kind target = .ok ()) &&
    ((normalizeList tags "tags").toOption.any fun ts =>
      decide (ts.length ≤ maxTags) && ts.all (shortText · 64)) &&
    identified signatures (sampleRecord version kind target tags signature recordId)

theorem sampleRecord_valid {signatures : List (PyStr × PyStr)} {version target tags : Json}
    {kind signature recordId : PyStr}
    (h : sampleChecked signatures version kind target tags signature recordId = true) :
    @validateRecord (keyring samplePublicKey signatures)
      (sampleRecord version kind target tags signature recordId) true = .ok () := by
  simp only [sampleChecked, Bool.and_eq_true, decide_eq_true_eq] at h
  obtain ⟨⟨⟨⟨hversion, hkind⟩, htarget⟩, htags⟩, hidentified⟩ := h
  simp only [validateRecord, bind_ok, exists_unit]
  refine ⟨kind, ?_, sampleRecord_texts, htarget, ?_, validateIdentity_of_identified rfl hidentified⟩
  · simp only [validateHeader, sampleRecord, bind_ok, require_ok, exists_unit]
    exact ⟨rfl, rfl, require_ok.mpr hversion, true, congrArg Except.ok (decide_eq_true hkind),
      rfl, rfl⟩
  · cases hts : normalizeList tags "tags" with
    | error e =>
      rw [hts] at htags
      cases htags
    | ok ts =>
      rw [hts] at htags
      simp only [Except.toOption, Option.any_some, Bool.and_eq_true, decide_eq_true_eq] at htags
      simp only [validateLists, bind_ok, require_ok, exists_unit, forM_ok]
      exact ⟨_, rfl, _, rfl, ts, hts, by decide, by decide, htags,
        fun _ h => absurd h List.not_mem_nil, fun _ h => absurd h List.not_mem_nil⟩

end Records

/-- The signatures of the sample records with targets and of those that they are about. -/
@[reducible] def feedKeys : Ed25519 := keyring samplePublicKey
  [(ascii "83d3932cdeced806477ff4de3cce7252a328d7f1f3572390c51a6fcce24f9792", ascii
    "FUwfKe7yTGKwwbECgdf2htW2Y/yb0btvToJYysd+ouzeZXxdXY8/Bk7n4oJQhHgKUXiCLWPZ32SJiM/tyO+0Aw=="),
   (ascii "70bf6374413229b22b96be9440624acef65f7bcfdbbb9bd906685abdaa66b1d9", ascii
    "GHEdX2bqg5Y8cA6Yy03AAsAElGsI5I0d6hEl8qnq0N7fqSo1lrKG6DCAtLErEWBrJhmpqCk61A++RBFH2QiGAA=="),
   (ascii "87759fb8110538181cdb362272d0f825ea7e28b17b042b36c0ce17c1f9019fc5", ascii
    "+qITooKwQRlSIELALYGVp7Qy82x0JwZ3FKOs1F71U42S78X5gWjAW24VLAMrmuxm9IBPgETwuYDZ1fEJB9xmDw=="),
   (ascii "5e7c6f6281ddf776a1de2ea7ab38ead786854871bf847762e91637be0f62274b", ascii
    "FxgdBSrvPTFsYOQ/7+zK950XHWh/vJuF77La7oK8BDbg1OnWdy+BKFPYrBPwlZdL/1zBxR43z2u8ET2jsT3VAA=="),
   (ascii "510c6e86e3cc317352cf0574ca91e8f83ed93de4a1ea11a1123c09ef8690425b", ascii
    "7Z/WnmQFXtB4op1RUhhpcTu+ZyF15daFzpP8B2qWl/OUcsmDZZwrMk9lVmEtFti5Ku+770ndsvFmAcgRW1fTCg==")]

attribute [local instance] feedKeys

def harmlessBody : Json :=
  sampleRecord (.int 1) "claim" .null (.arr [.str "hap:person-impact:none"])
    "+qITooKwQRlSIELALYGVp7Qy82x0JwZ3FKOs1F71U42S78X5gWjAW24VLAMrmuxm9IBPgETwuYDZ1fEJB9xmDw=="
    "ee8090f2561c04e94986db5aa987c0028c72b64a72a2c4484562dfab614ac2c9"

def noticeBody : Json :=
  sampleRecord (.int 1) "person_impact_notice"
    (.str "ee8090f2561c04e94986db5aa987c0028c72b64a72a2c4484562dfab614ac2c9")
    (.arr [.str "hap:person-impact:direct"])
    "FxgdBSrvPTFsYOQ/7+zK950XHWh/vJuF77La7oK8BDbg1OnWdy+BKFPYrBPwlZdL/1zBxR43z2u8ET2jsT3VAA=="
    "586ff124512e49965d9a55026bd7fff7e3a318c1eb79944c3a80f807e3ed0ffe"

def restrictionBody : Json :=
  sampleRecord (.int 1) "restriction_notice"
    (.str "ee8090f2561c04e94986db5aa987c0028c72b64a72a2c4484562dfab614ac2c9") (.arr [])
    "7Z/WnmQFXtB4op1RUhhpcTu+ZyF15daFzpP8B2qWl/OUcsmDZZwrMk9lVmEtFti5Ku+770ndsvFmAcgRW1fTCg=="
    "a33bcc43c7811111d3443206e4b01fc35c5a60462fcace2febff5343b6ae4eb6"

theorem harmlessBody_valid : Records.validateRecord harmlessBody true = .ok () :=
  Records.sampleRecord_valid (by decide +kernel)

theorem noticeBody_valid : Records.validateRecord noticeBody true = .ok () :=
  Records.sampleRecord_valid (by decide +kernel)

theorem restrictionBody_valid : Records.validateRecord restrictionBody true = .ok () :=
  Records.sampleRecord_valid (by decide +kernel)

end Conformance

end HistoryAnchor

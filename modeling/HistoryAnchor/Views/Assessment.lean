import HistoryAnchor.Evidence.Store
import HistoryAnchor.Views.Responsible

/-! # The evidence assessment

A classification of a record by what is anchored of it and of its links, and the
count of its evidence that is available locally.
-/

namespace HistoryAnchor

open Python

/-- What `for item in record.get(field, [])` goes through. -/
def iterated (record : Json) (field : PyStr) : Py (List Json) :=
  match Merkle.iterate (record.getD field (.arr [])) with
  | some items => .ok items
  | none => raise .typeError "object is not iterable"

/-- `sorted(set(xs))`. -/
def sortedSet (xs : List PyStr) : List PyStr := Batches.sorted xs.dedup

inductive Classification
  | unpublished | contested | corrected | multiAttested | attested | bitcoinAnchoredClaim
  deriving DecidableEq

/-- The assessment without the members that are the same in every one. -/
structure Assessment where
  recordId : PyStr
  classification : Classification
  bitcoinAnchorConfirmed : Bool
  evidenceItemsCommitted : ℕ
  evidenceItemsAvailable : ℕ
  anchoredAttestations : ℕ
  distinctAttestingKeys : ℕ
  anchoredDisputes : ℕ
  anchoredCorrections : ℕ
  verifiedEvidence : List PyStr
  deriving DecidableEq

def classify (anchored : Bool) (disputes corrections attesters : ℕ) : Classification :=
  if !anchored then .unpublished
  else if disputes ≠ 0 then .contested
  else if corrections ≠ 0 then .corrected
  else if 2 ≤ attesters then .multiAttested
  else if attesters = 1 then .attested
  else .bitcoinAnchoredClaim

variable [Ed25519]

def assessRecord (record : Record) (linkedRecords : List Record) (anchoredIds : List PyStr)
    (availableEvidence : List PyStr) : Py Assessment := do
  let anchored := decide (record.recordId ∈ anchoredIds)
  let anchoredLinks := linkedRecords.filter (·.recordId ∈ anchoredIds)
  let attestations := anchoredLinks.filter (·.kind = ascii "attestation")
  let disputes := anchoredLinks.filter (·.kind = ascii "dispute")
  let corrections := anchoredLinks.filter (·.kind = ascii "correction")
  let distinctAttesters :=
    sortedSet ((attestations.filter (·.authorId ≠ record.authorId)).map Record.authorId)
  let evidence ← iterated record.body "evidence"
  let verifiedEvidence :=
    sortedSet ((evidence.map (Json.text · "sha256")).filter (· ∈ availableEvidence))
  return {
    recordId := record.recordId
    classification :=
      classify anchored disputes.length corrections.length distinctAttesters.length
    bitcoinAnchorConfirmed := anchored
    evidenceItemsCommitted := evidence.length
    evidenceItemsAvailable := verifiedEvidence.length
    anchoredAttestations := attestations.length
    distinctAttestingKeys := distinctAttesters.length
    anchoredDisputes := disputes.length
    anchoredCorrections := corrections.length
    verifiedEvidence := verifiedEvidence }

end HistoryAnchor

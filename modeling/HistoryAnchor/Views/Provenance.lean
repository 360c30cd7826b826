import HistoryAnchor.Python.Numbers
import HistoryAnchor.Views.Assessment

/-! # The provenance graph

Exact matches of evidence, the sources that a record declares, and the signed
inferences that link to it.
-/

namespace HistoryAnchor

open Python

namespace Provenance

def rulesetPrefix : PyStr := "hap:analysis-ruleset:"
def confidencePrefix : PyStr := "hap:analysis-confidence:"

/-- What follows the prefix in the first tag that starts with it. -/
def firstTag (record : Json) (tagPrefix : PyStr) : Py (Option PyStr) := do
  let tags ← iterated record "tags"
  return (tags.filterMap fun tag => match tag with
    | .str s => if tagPrefix <+: s then some (s.drop tagPrefix.length) else none
    | _ => none).head?

def ruleset (record : Json) : Py (Option PyStr) := do
  let value ← firstTag record rulesetPrefix
  return value.filter (· ≠ [])

def confidence (record : Json) : Py (Option ℤ) := do
  let value ← firstTag record confidencePrefix
  return (value.bind int).filter fun n => 0 ≤ n ∧ n ≤ 100

structure Declaration where
  uri : PyStr
  label : Json

structure Overlay where
  recordId : PyStr
  authorId : PyStr
  bitcoinAnchored : Bool
  ruleset : PyStr
  confidencePercent : Option ℤ
  statement : PyStr
  relatedRecordReferences : List PyStr

/-- The graph without the members that are the same in every one. -/
structure Graph where
  recordId : PyStr
  signedByAuthorId : PyStr
  bitcoinAnchored : Bool
  targetRecordId : Json
  committedEvidence : List PyStr
  exactEvidenceMatches : List (PyStr × List PyStr)
  signedDeclarations : List Declaration
  analysisOverlays : List Overlay

variable [Ed25519]

/-- `any` item of the candidate's evidence has the digest, spelled so. -/
def commitsTo (candidate : Record) (digest : PyStr) : Py Bool := do
  let items ← iterated candidate.body "evidence"
  return items.any fun item => (item.getD "sha256" .null).eqStr digest

def exactMatches (recordId : PyStr) (allRecords : List Record) (digest : PyStr) :
    Py (PyStr × List PyStr) := do
  let candidates := allRecords.filter (·.recordId ≠ recordId)
  let found ← candidates.mapM fun candidate => do
    let committed ← commitsTo candidate digest
    return (candidate.recordId, committed)
  return (digest, sortedSet ((found.filter Prod.snd).map Prod.fst))

def overlay (anchoredIds : List PyStr) (item : Record) : Py Overlay := do
  let ruleset ← ruleset item.body
  let confidence ← confidence item.body
  let sources ← iterated item.body "sources"
  let recordUri : PyStr := "hap:record:"
  return {
    recordId := item.recordId
    authorId := item.authorId
    bitcoinAnchored := item.recordId ∈ anchoredIds
    ruleset := ruleset.getD "unspecified"
    confidencePercent := confidence
    statement := item.body.text "statement"
    relatedRecordReferences := (sources.map (Json.text · "uri")).filter (recordUri <+: ·) }

def buildProvenanceGraph (record : Record) (allRecords linkedRecords : List Record)
    (anchoredIds : List PyStr) : Py Graph := do
  let evidence ← iterated record.body "evidence"
  let hashes := sortedSet (evidence.map (Json.text · "sha256"))
  let matches_ ← hashes.mapM (exactMatches record.recordId allRecords)
  let sources ← iterated record.body "sources"
  let overlays ← (linkedRecords.filter (·.kind = ascii "provenance_assertion")).mapM (overlay anchoredIds)
  return {
    recordId := record.recordId
    signedByAuthorId := record.authorId
    bitcoinAnchored := record.recordId ∈ anchoredIds
    targetRecordId := record.body.getD "target_record_id" .null
    committedEvidence := hashes
    exactEvidenceMatches := matches_
    signedDeclarations := sources.map fun s => ⟨s.text "uri", s.getD "label" .null⟩
    analysisOverlays := overlays }

end Provenance

end HistoryAnchor

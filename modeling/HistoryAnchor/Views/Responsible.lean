import HistoryAnchor.Node.Storage

/-! # The responsible-publication profile

What a client derives from a record, the records that link to it and what of them
is anchored: whether the record is listed in the reference feed, and why. The
verdict is read off mutable reasons and flags in the source; here it is that of a rule.
-/

namespace HistoryAnchor

open Python

namespace Responsible

def personImpactPrefix : PyStr := "hap:person-impact:"
def personImpactValues : List PyStr := ["none", "direct", "indirect-or-mosaic", "uncertain"]
def viewEnableTag : PyStr := "hap:view:enable-discovery"
def viewRestrictTag : PyStr := "hap:view:restrict-discovery"

def contextKinds : List PyStr :=
  ["subject_response", "person_impact_notice", "restriction_notice", "withdrawal_notice",
   "legal_adjudication", "public_interest_justification", "view_decision", "dispute", "correction",
   "attestation"]

def iterateTags (record : Json) : Py (List Json) :=
  match Merkle.iterate (record.getD "tags" (.arr [])) with
  | some tags => .ok tags
  | none => raise .typeError "object is not iterable"

/-- `set(record.get("tags", []))`. -/
def tagSet (record : Json) : Py (List Json) := do
  let tags ← iterateTags record
  require (tags.all Json.hashable) .typeError "unhashable type"
  return tags

/-- `tag in tags`. -/
def hasTag (tags : List Json) (tag : PyStr) : Bool := tags.any (·.eqStr tag)

def impactValue (tag : Json) : Option PyStr :=
  match tag with
  | .str s => if personImpactPrefix <+: s then some (s.drop personImpactPrefix.length) else none
  | _ => none

def declaredPersonImpact (record : Json) : Py (Option PyStr) := do
  let tags ← iterateTags record
  let values := ((tags.filterMap impactValue).filter (· ∈ personImpactValues)).dedup
  return if 1 < values.length then some "uncertain" else values.head?

/-- The rules of the profile for one record; a record that fails them can still be valid. -/
def validateResponsibleRecord (record : Json) : Py Unit := do
  let kind := record.getD "kind" .null
  let tags ← tagSet record
  let impact ← declaredPersonImpact record
  let actions := [viewEnableTag, viewRestrictTag].filter (hasTag tags)
  require (kind.eqStr "claim" → impact ≠ none) .responsibleProfileError
    ("responsible-profile relays require one person-impact declaration: " ++
      "none, direct, indirect-or-mosaic, or uncertain")
  require (kind.eqStr "person_impact_notice" →
      impact ∈ (["direct", "indirect-or-mosaic", "uncertain"] : List PyStr).map some)
    .responsibleProfileError "person_impact_notice requires a non-none person-impact tag"
  if kind.eqStr "view_decision" then
    require (actions.length = 1) .responsibleProfileError
      "view_decision requires exactly one view action tag"
  else
    require (actions = []) .responsibleProfileError
      "view action tags are reserved for view_decision records"

structure Summary where
  recordId : PyStr
  kind : PyStr
  authorId : PyStr
  title : PyStr
  statement : PyStr
  createdAt : PyStr
  bitcoinAnchored : Bool
  tags : Json

inductive Action
  | enableDiscovery | restrictDiscovery | invalid
  deriving DecidableEq

/-- A view decision with what the client makes of it. -/
structure Evaluation extends Summary where
  action : Action
  recognisedAccountableAuthor : Bool
  eligible : Bool

structure Decisions where
  acceptedEnable : Option Evaluation
  acceptedRestrict : Option Evaluation
  evaluations : List Evaluation

inductive DiscoveryState
  | unpublished | discoverable | discoverableByAccountableDecision | shielded
  deriving DecidableEq

structure Cooling where
  requiredBlocks : ℤ
  originalAnchorHeight : Option ℤ
  currentChainHeight : Option ℤ
  blocksElapsed : Option ℤ
  complete : Bool

structure ChallengeWindow where
  requiredBlocks : ℤ
  firstAnchoredNoticeHeight : Option ℤ
  endsAtHeight : Option ℤ
  active : Bool

structure Context where
  subjectResponses : List Summary
  personImpactNotices : List Summary
  restrictionNotices : List Summary
  withdrawalNotices : List Summary
  legalAdjudications : List Summary
  publicInterestJustifications : List Summary
  disputes : List Summary
  corrections : List Summary
  viewDecisions : List Evaluation

/-- The view without the members that are the same in every view. -/
structure View where
  recordId : PyStr
  declared : PyStr
  protectiveTriggered : Bool
  reasons : List PyStr
  cooling : Cooling
  challengeWindow : ChallengeWindow
  reviewFlags : List PyStr
  state : DiscoveryState
  context : Context

/-- `listed_in_reference_feed`. -/
def View.listed (v : View) : Bool :=
  v.state ∈ [.discoverable, .discoverableByAccountableDecision]

def coolingAt (originalHeight chainHeight : Option ℤ) (coolingBlocks : ℤ) : Cooling :=
  let elapsed := do
    let chain ← chainHeight
    let original ← originalHeight
    return max 0 (chain - original)
  { requiredBlocks := max 0 coolingBlocks
    originalAnchorHeight := originalHeight
    currentChainHeight := chainHeight
    blocksElapsed := elapsed
    complete := elapsed.any (max 0 coolingBlocks ≤ ·) }

def challengeWindowAt (noticeHeights : List ℤ) (chainHeight : Option ℤ) (noticeBlocks : ℤ) :
    ChallengeWindow :=
  let endsAt := do
    let _ ← chainHeight
    let first ← noticeHeights.head?
    return first + max 0 noticeBlocks
  { requiredBlocks := max 0 noticeBlocks
    firstAnchoredNoticeHeight := noticeHeights.head?
    endsAtHeight := endsAt
    active := chainHeight.any fun chain => endsAt.any (chain < ·) }

variable [Ed25519]

def recordSummary (record : Record) (anchoredIds : List PyStr) : Summary where
  recordId := record.recordId
  kind := record.kind
  authorId := record.authorId
  title := record.body.text "title"
  statement := record.body.text "statement"
  createdAt := record.body.text "created_at"
  bitcoinAnchored := record.recordId ∈ anchoredIds
  tags := record.body.getD "tags" (.arr [])

def evaluateDecision (anchoredIds recognised : List PyStr) (coolingComplete : Bool)
    (acc : Decisions) (decision : Record) : Py Decisions := do
  let tags ← tagSet decision.body
  let action : Action :=
    if hasTag tags viewEnableTag then .enableDiscovery
    else if hasTag tags viewRestrictTag then .restrictDiscovery
    else .invalid
  let accountable := decide (decision.authorId ∈ recognised)
  let evaluation : Evaluation :=
    { recordSummary decision anchoredIds with
      action := action
      recognisedAccountableAuthor := accountable
      eligible := decision.recordId ∈ anchoredIds && accountable }
  let acc := { acc with evaluations := acc.evaluations ++ [evaluation] }
  if !evaluation.eligible then return acc
  match action with
  | .restrictDiscovery => return { acc with acceptedRestrict := some evaluation }
  | .enableDiscovery =>
    return if coolingComplete then { acc with acceptedEnable := some evaluation } else acc
  | .invalid => return acc

def textIf (c : Prop) [Decidable c] (text : PyStr) : List PyStr := if c then [text] else []

def impactReason : Option PyStr → List PyStr
  | none => [ascii "person impact was not declared"]
  | some impact => textIf (impact ≠ ascii "none") ("publisher declared person impact: " ++ impact)

def initialReasons (published : Bool) (impact : Option PyStr) (windowActive : Bool)
    (recognisedRestrictions : List Record) : List PyStr :=
  textIf (published = false) "record is not canonically published in Bitcoin" ++
  impactReason impact ++
  textIf (windowActive = true) "the fixed non-renewable challenge window is active" ++
  textIf (recognisedRestrictions ≠ []) "a recognised accountable restriction notice exists"

def ofKind (linkedRecords : List Record) (kind : PyStr) : List Record :=
  (linkedRecords.filter (·.kind ∈ contextKinds)).filter (·.kind = kind)

/-- `sorted` heights of the anchored notices whose height is known. -/
def anchoredNoticeHeights (notices : List Record) (anchoredIds : List PyStr)
    (anchorHeights : PyStr → Option ℤ) : List ℤ :=
  ((notices.filter (·.recordId ∈ anchoredIds)).filterMap fun n =>
    anchorHeights n.recordId).insertionSort (· ≤ ·)

/-- Whether the record is protected once the decisions are taken, and why. -/
def verdict (reasons : List PyStr) (decisions : Decisions) (recognisedRestrictions : List Record)
    (windowActive : Bool) : Bool × List PyStr :=
  if decisions.acceptedRestrict.isSome then
    (true, reasons ++ [ascii "a recognised accountable view decision restricts discovery"])
  else if reasons ≠ [] ∧ decisions.acceptedEnable.isSome ∧ recognisedRestrictions = [] ∧
      windowActive = false then
    (false,
      [ascii "a recognised accountable view decision enabled discovery after the cooling period"])
  else (decide (reasons ≠ []), reasons)

omit [Ed25519] in
def discoveryState (published shielded : Bool) (impact : Option PyStr) : DiscoveryState :=
  if published = false then .unpublished
  else if shielded = false ∧ impact = some (ascii "none") then .discoverable
  else if shielded = false then .discoverableByAccountableDecision
  else .shielded

def assessResponsiblePublication (record : Record) (linkedRecords : List Record)
    (anchoredIds : List PyStr) (anchorHeights : PyStr → Option ℤ) (chainHeight : Option ℤ)
    (recognised : List PyStr) (coolingBlocks noticeProtectionBlocks : ℤ) : Py View := do
  let impact ← declaredPersonImpact record.body
  let published := decide (record.recordId ∈ anchoredIds)
  let ofKind := ofKind linkedRecords
  let impactNotices := ofKind "person_impact_notice"
  let restrictions := ofKind "restriction_notice"
  let reviewFlags :=
    textIf (impactNotices ≠ []) "one or more person-impact notices exist" ++
    textIf (ofKind "subject_response" ≠ []) "one or more subject responses exist" ++
    textIf (restrictions ≠ []) "one or more restriction notices exist" ++
    textIf (ofKind "dispute" ≠ []) "the record is disputed"
  let window := challengeWindowAt
    (anchoredNoticeHeights (impactNotices ++ restrictions) anchoredIds anchorHeights) chainHeight
    noticeProtectionBlocks
  let recognisedRestrictions := restrictions.filter fun n =>
    n.recordId ∈ anchoredIds ∧ n.authorId ∈ recognised
  let reasons := initialReasons published impact window.active recognisedRestrictions
  let cooling := coolingAt (anchorHeights record.recordId) chainHeight coolingBlocks
  let decisions ← (ofKind "view_decision").foldlM
    (evaluateDecision anchoredIds recognised cooling.complete) ⟨none, none, []⟩
  let (shielded, reasons) := verdict reasons decisions recognisedRestrictions window.active
  let state := discoveryState published shielded impact
  let summaries (kind : PyStr) := (ofKind kind).map (recordSummary · anchoredIds)
  return {
    recordId := record.recordId
    declared := impact.getD "missing"
    protectiveTriggered := state = .shielded
    reasons := reasons
    cooling := cooling
    challengeWindow := window
    reviewFlags := reviewFlags
    state := state
    context :=
      { subjectResponses := summaries "subject_response"
        personImpactNotices := summaries "person_impact_notice"
        restrictionNotices := summaries "restriction_notice"
        withdrawalNotices := summaries "withdrawal_notice"
        legalAdjudications := summaries "legal_adjudication"
        publicInterestJustifications := summaries "public_interest_justification"
        disputes := summaries "dispute"
        corrections := summaries "correction"
        viewDecisions := decisions.evaluations } }

end Responsible

end HistoryAnchor

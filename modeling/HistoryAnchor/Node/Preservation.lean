import HistoryAnchor.Node.Discovery
import HistoryAnchor.Scan.Steps

/-! # What the operations preserve

An invariant of the store that survives the single calls of an operation survives
the operation. Imports and submissions add records, batches and peer references;
the local operations add batches, broadcast anchors and registered rows.
-/

namespace HistoryAnchor

open Python Effects Prog Tables

variable [Ed25519] {α β : Type} {rpcAnswers : Answers} {I : Store → Prop}

theorem storage_preserves {c : StorageCall β} (h : ∀ s, I s → I (s.run c).2) :
    (storage c).Preserves (environment rpcAnswers) I := by
  apply preserves_perform
  intro s x s' hs hx
  rw [show s' = (s.run c).2 from congrArg Prod.snd hx]
  exact h s hs

theorem outside_preserves (c : OutsideCall β) :
    (Prog.perform (.outside c) : Node β).Preserves (environment rpcAnswers) I := by
  apply preserves_perform
  rintro s x s' hs ⟨-, rfl⟩
  exact hs

theorem rpc_preserves (c : RpcCall β) : (rpc c).Preserves (environment rpcAnswers) I := by
  apply preserves_perform
  rintro s x s' hs ⟨-, rfl⟩
  exact hs

namespace Service

theorem wrapped_preserves (x : Py α) : (wrapped x).Preserves (environment rpcAnswers) I :=
  preserves_ofExcept _

theorem serviceError_preserves (text : PyStr) :
    (serviceError text : Node α).Preserves (environment rpcAnswers) I :=
  preserves_raise _

theorem check_preserves (c : Prop) [Decidable c] (text : PyStr) :
    (check c text).Preserves (environment rpcAnswers) I :=
  preserves_ofExcept _

omit [Ed25519] in
theorem localReference_point (a : Json) (existing : Option Anchor) :
    (localReference a existing).point = (a.text "txid", a.nat "vout") := by
  unfold localReference
  cases existing with
  | none => rfl
  | some row =>
    dsimp only
    split_ifs <;> rfl

omit [Ed25519] in
theorem localReference_batchId (a : Json) (existing : Option Anchor) :
    (localReference a existing).batchId = a.text "batch_id" := by
  unfold localReference
  cases existing with
  | none => rfl
  | some row =>
    dsimp only
    split_ifs <;> rfl

section Imports

variable (hrecord : ∀ s r, I s → I (s.addRecord r))

include hrecord

theorem submitRecord_preserves (record : Json) (requireLocalTarget : Bool)
    (localPolicy : Json → Py Unit) :
    (submitRecord record requireLocalTarget localPolicy).Preserves (environment rpcAnswers) I := by
  unfold submitRecord
  split
  · exact preserves_raise _
  · refine (preserves_ofExcept _).bind fun _ => ?_
    refine (storage_preserves fun _ => id).bind fun existing => ?_
    have hadd : ∀ r : Record, Preserves (environment rpcAnswers) I
        (do let _ ← storage (.addRecord r); return Status.accepted) := fun r =>
      (storage_preserves fun s => hrecord s r).bind fun _ => preserves_ret _
    split_ifs
    · exact preserves_ret _
    · refine (storage_preserves fun _ => id).bind fun target => ?_
      split_ifs
      · exact (serviceError_preserves _).bind fun _ => hadd _
      · exact hadd _
    · exact hadd _

theorem importPass_preserves (records pending : List Json) (imported : ℕ) :
    (importPass records pending imported).Preserves (environment rpcAnswers) I := by
  induction records generalizing pending imported with
  | nil => exact preserves_ret _
  | cons record rest ih =>
    have hrest : ∀ stored : Bool, Preserves (environment rpcAnswers) I
        (if !stored ∧ record.text "target_record_id" ∈ pending.map (Json.text · "record_id") then
          importPass rest pending imported
        else do
          let result ← submitRecord record false noPolicy
          importPass rest (pending.filter fun r => r.text "record_id" ≠ record.text "record_id")
            (if result = .accepted then imported + 1 else imported)) := by
      intro stored
      split_ifs
      · exact ih _ _
      · exact (submitRecord_preserves hrecord _ _ _).bind fun _ => ih _ _
    unfold importPass
    dsimp only
    split_ifs
    · exact hrest true
    · rw [map_eq_pure_bind]
      refine Preserves.bind ?_ hrest
      exact (storage_preserves fun _ => id).bind fun _ => preserves_ret _

theorem importPending_preserves (unresolved : PyStr) (fuel : ℕ) (pending : List Json)
    (imported : ℕ) :
    (importPending unresolved fuel pending imported).Preserves (environment rpcAnswers) I := by
  induction fuel generalizing pending imported with
  | zero =>
    cases pending with
    | nil => exact preserves_ret _
    | cons => exact serviceError_preserves _
  | succ fuel ih =>
    cases pending with
    | nil => exact preserves_ret _
    | cons record rest =>
      unfold importPending
      refine (importPass_preserves hrecord _ _ _).bind fun x => ?_
      obtain ⟨left, imported'⟩ := x
      dsimp only
      split_ifs
      · exact (serviceError_preserves _).bind fun _ => ih _ _
      · exact ih _ _

variable (hbatch : ∀ s b, I s → I (s.addBatch b).2)

omit hrecord in
include hbatch in
theorem importBatch_preserves (batch : Json) :
    (importBatch batch).Preserves (environment rpcAnswers) I := by
  unfold importBatch
  split
  · exact serviceError_preserves _
  · refine Preserves.bind (preserves_foldlM ?_ 0) fun missing => ?_
    · exact fun n recordId _ => (storage_preserves fun _ => id).bind fun _ => preserves_ret _
    · refine (preserves_ofExcept _).bind fun _ => ?_
      exact (storage_preserves fun s => hbatch s _).bind fun _ => preserves_ret _

include hbatch

theorem importPackage_preserves (package : Json) :
    (importPackage package).Preserves (environment rpcAnswers) I := by
  refine (wrapped_preserves _).bind fun _ => ?_
  refine (importPending_preserves hrecord _ _ _ _).bind fun _ => ?_
  exact (importBatch_preserves hbatch _).bind fun _ => preserves_ret _

omit hrecord hbatch

theorem importAnchorReference_keeps {anchor : Json} {s : Store} (hs : I s)
    (hanchor : Anchors.validateAnchorReference anchor = .ok () →
      (∃ b ∈ s.batches, b.batchId = anchor.text "batch_id" ∧ anchor.text "network" = b.network) →
      (∀ row, s.anchors.find? (anchor.text "txid", anchor.nat "vout") = some row →
        row.batchId = anchor.text "batch_id") →
      I (s.addAnchor (localReference anchor
        (s.anchors.find? (anchor.text "txid", anchor.nat "vout")))).2) :
    (importAnchorReference anchor).Alone (environment rpcAnswers) I (fun _ => I) s := by
  cases hvalid : Anchors.validateAnchorReference anchor with
  | error e =>
    rw [importAnchorReference, wrapped, hvalid]
    exact hs
  | ok _ =>
  simp only [importAnchorReference, wrapped, hvalid, rethrow, bind_eq, Alone, ensures_bind,
    ensures_ofExcept, thenOk_ok, storage_ensures, forall_eq', Store.run]
  refine ⟨hs, ?_⟩
  cases hbatch : s.batches.find? (anchor.text "batch_id") with
  | none => exact hs
  | some batch =>
    obtain ⟨hm, hid⟩ := Table.find?_eq_some.mp hbatch
    simp only [check, ensures_bind, ensures_ofExcept, require]
    split_ifs with hnetwork
    · simp only [thenOk_ok, ensures_bind, storage_ensures, forall_eq', Store.run]
      refine ⟨hs, ?_⟩
      -- The upsert depends on what the read before it has found.
      generalize hx : s.anchor (anchor.text "txid", anchor.nat "vout") = x
      have hcases := s.anchor_cases (anchor.text "txid", anchor.nat "vout")
      rw [hx] at hcases
      rcases hcases with rfl | rfl
      · simp only [thenOk_ok, ensures_bind, ensures_ofExcept]
        split_ifs with hall
        · have hI := hanchor hvalid ⟨batch, hm, hid, hnetwork⟩ fun row hrow => by
            rw [hrow] at hall
            simpa using hall
          simp only [thenOk_ok, ensures_bind, storage_ensures, forall_eq', Store.run]
          refine ⟨hI, ?_⟩
          generalize (s.addAnchor _).1 = r
          cases r with
          | error e => exact hI
          | ok created => exact hI
        · exact hs
      · exact hs
    · exact hs

theorem importAnchorReference_preserves {anchor : Json}
    (hanchor : ∀ s, I s → Anchors.validateAnchorReference anchor = .ok () →
      (∀ row, s.anchors.find? (anchor.text "txid", anchor.nat "vout") = some row →
        row.batchId = anchor.text "batch_id") →
      I (s.addAnchor (localReference anchor
        (s.anchors.find? (anchor.text "txid", anchor.nat "vout")))).2) :
    (importAnchorReference anchor).Preserves (environment rpcAnswers) I :=
  fun s hs => importAnchorReference_keeps hs fun hvalid _ => hanchor s hs hvalid

theorem countAccepted_preserves {f : Json → Node Status} {values : List Json}
    (hf : ∀ v ∈ values, (f v).Preserves (environment rpcAnswers) I) :
    (countAccepted f values).Preserves (environment rpcAnswers) I :=
  preserves_foldlM (fun _ v hv => (hf v hv).bind fun _ => preserves_ret _) 0

theorem importSnapshot_preserves (hrecord : ∀ s r, I s → I (s.addRecord r))
    (hbatch : ∀ s b, I s → I (s.addBatch b).2) {snapshot : Json}
    (hanchor : ∀ v ∈ snapshot.items "anchors",
      (importAnchorReference v).Preserves (environment rpcAnswers) I) :
    (importSnapshot snapshot).Preserves (environment rpcAnswers) I := by
  refine (preserves_ofExcept _).bind fun _ => ?_
  refine (importPending_preserves hrecord _ _ _ _).bind fun imported => ?_
  refine (countAccepted_preserves fun v _ => importBatch_preserves hbatch v).bind fun batches => ?_
  exact (countAccepted_preserves hanchor).bind fun anchors => preserves_ret _

end Imports

section Local

variable (hbatch : ∀ s b, I s → I (s.addBatch b).2)

include hbatch

theorem createBatch_preserves (network : PyStr) (limit maxPackageBytes : ℤ) :
    (createBatch network limit maxPackageBytes).Preserves (environment rpcAnswers) I := by
  refine (storage_preserves fun _ => id).bind fun candidates => ?_
  refine (check_preserves _ _).bind fun _ => ?_
  refine (preserves_ofExcept _).bind fun records => ?_
  refine (outside_preserves _).bind fun createdAt => ?_
  refine (preserves_ofExcept _).bind fun batch => ?_
  exact (storage_preserves fun s => hbatch s batch).bind fun _ => preserves_ret _

theorem createDirectBatch_preserves (recordId network : PyStr) :
    (createDirectBatch recordId network).Preserves (environment rpcAnswers) I := by
  refine (storage_preserves fun _ => id).bind fun record => ?_
  refine (check_preserves _ _).bind fun _ => ?_
  refine (outside_preserves _).bind fun createdAt => ?_
  refine (preserves_ofExcept _).bind fun batch => ?_
  exact (storage_preserves fun s => hbatch s batch).bind fun _ => preserves_ret _

omit hbatch

theorem anchorBatch_preserves
    (hanchor : ∀ s a, I s → a.status = .broadcast → I (s.addAnchor a).2) (batchId : PyStr)
    (allowMainnet : Bool) :
    (anchorBatch batchId allowMainnet).Preserves (environment rpcAnswers) I := by
  refine (storage_preserves fun _ => id).bind fun batch => ?_
  cases batch with
  | none => exact serviceError_preserves _
  | some batch =>
    refine (preserves_ofExcept _).bind fun _ => ?_
    refine (check_preserves _ _).bind fun _ => ?_
    refine ((rpc_preserves _).bind fun _ => preserves_ret _).bind fun rpcNetwork => ?_
    refine (check_preserves _ _).bind fun _ => ?_
    refine (outside_preserves _).bind fun broadcast => ?_
    refine (outside_preserves _).bind fun anchoredAt => ?_
    refine Preserves.bind (storage_preserves fun s hs => ?_) fun _ => preserves_ret _
    simp only [Store.run]
    exact hanchor s _ hs rfl

end Local

end Service

namespace Discovery

theorem downloadPackage_preserves (peer batchId : PyStr) :
    (downloadPackage peer batchId).Preserves (environment rpcAnswers) I := by
  refine (outside_preserves _).bind fun value => ?_
  refine (Service.check_preserves _ _).bind fun _ => ?_
  exact (preserves_ofExcept _).bind fun _ => preserves_ret _

theorem fetchPackage_preserves (batchId : PyStr) (peers : List PyStr) (errors : List PeerError) :
    (fetchPackage batchId peers errors).Preserves (environment rpcAnswers) I := by
  induction peers generalizing errors with
  | nil => exact preserves_ret _
  | cons peer peers ih =>
    unfold fetchPackage
    refine Preserves.bind (Preserves.outcome ?_) fun attempt => ?_
    · refine (downloadPackage_preserves _ _).bind fun candidate => ?_
      exact (Service.check_preserves _ _).bind fun _ => preserves_ret _
    · cases attempt with
      | ok package => exact preserves_ret _
      | error e => exact ih _

theorem resolveCommitments_preserves (hrecord : ∀ s r, I s → I (s.addRecord r))
    (hbatch : ∀ s b, I s → I (s.addBatch b).2)
    (hregister : ∀ s, ∀ c ∈ s.commitments, I s → s.Local c.batchId c.payloadHex →
      I (s.confirm c) ∧ I (s.register c))
    (hmark : ∀ s p, I s → I (s.markCommitmentResolved p)) (peers : List PyStr) (limit : ℤ) :
    (resolveCommitments peers limit).Preserves (environment rpcAnswers) I := by
  refine (storage_preserves fun _ => id).bind fun unresolved => ?_
  refine preserves_foldlM (fun result c _ => ?_) _
  refine (fetchPackage_preserves _ _ _).bind fun x => ?_
  obtain ⟨package, errors⟩ := x
  cases package with
  | none => exact preserves_ret _
  | some package =>
    refine (Service.importPackage_preserves hrecord hbatch package).bind fun _ => ?_
    refine Preserves.bind ?_ fun _ => ?_
    · intro s hs
      apply registerScannedAnchor_alone hs
      · intro r hr _ _ hl
        obtain ⟨h₁, h₂⟩ := hregister s r hr hs hl
        exact ⟨h₁, h₂, h₂⟩
      · exact fun _ _ => hs
    · exact (storage_preserves fun s => hmark s _).bind fun _ => preserves_ret _

end Discovery

end HistoryAnchor

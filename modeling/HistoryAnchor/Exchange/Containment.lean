import HistoryAnchor.Exchange.Snapshots
import HistoryAnchor.Protocol.Exceptions

/-! # Malformed items of peers

The sync counts an item of a peer whose import raises a `ServiceError` and goes on; every
other exception ends it. Which items raise another one is read off the item and the store.
-/

namespace HistoryAnchor

open Python Effects Prog Tables

section Containment

variable [Ed25519] {rpcAnswers : Answers} {B : Set Batch} {s : Store}

namespace Store

def AnchorsFit (s : Store) : Prop := ∀ a ∈ s.anchors, a.Fits

theorem AnchorsFit.addAnchor (hs : s.AnchorsFit) (a : Anchor) : (s.addAnchor a).2.AnchorsFit := by
  unfold Store.addAnchor
  split_ifs with hfit h
  · intro a' ha'
    rcases Table.mem_upsert.mp ha' with ⟨ha', -⟩ | ⟨_, _, _, rfl⟩ | ⟨rfl, -⟩
    · exact hs a' ha'
    · exact hfit
    · exact hfit
  · exact hs
  · exact hs

theorem Reached.anchorsFit (h : s.Reached B) : s.AnchorsFit := by
  induction h with
  | empty => exact fun a ha => absurd ha Table.not_mem_empty
  | @call s β c _ _ ih =>
    cases c with
    | addAnchor a => exact ih.addAnchor a
    | addBatch b =>
      simp only [run, addBatch]
      split_ifs <;> exact ih
    | addScannedBlock row =>
      simp only [run, addScannedBlock]
      split_ifs <;> exact ih
    | addCommitment c =>
      simp only [run, addCommitment]
      split_ifs <;> exact ih
    | rewindBitcoinScan ancestor =>
      intro a ha
      change a ∈ s.anchors.updateWhere _ Anchor.reorganise fun _ => rfl at ha
      obtain ⟨a', ha', rfl⟩ := Table.mem_updateWhere.mp ha
      split_ifs <;> exact ih a' ha'
    | _ => exact ih

/-- The batch of a valid reference is stored on its network, and one of its integers that would be
looked up or written does not fit. -/
structure Overflows (s : Store) (anchor : Json) : Prop where
  valid : Anchors.validateAnchorReference anchor = .ok ()
  batch : ∃ b ∈ s.batches, b.batchId = anchor.text "batch_id" ∧ anchor.text "network" = b.network
  big : ¬ sqliteInt (anchor.nat "vout") ∨
    ((∀ row, s.anchors.find? (refPoint anchor) = some row →
        row.batchId = anchor.text "batch_id" ∧ row.status = .unverified) ∧
      (¬ sqliteInt (anchor.nat "anchored_at") ∨
        ∃ n, anchor.get "block_height" = some (.int n) ∧ ¬ sqliteInt n))

end Store

/-- The call returns or raises a `ServiceError`. -/
abbrev Contained {α : Type} (r : Py α) : Prop := Raises (·.isServiceError = true) r

namespace Service

theorem submitRecord_contained (record : Json) :
    (submitRecord record false noPolicy).Alone (environment rpcAnswers) (fun _ => True)
      (fun r _ => Contained r ↔ ¬ Records.UnhashableKind record) s := by
  by_cases hkind : Records.UnhashableKind record
  · obtain ⟨text, htext⟩ := Records.validateRecord_of_unhashableKind true hkind
    unfold submitRecord
    split
    · rename_i e he
      obtain rfl := Except.error.inj (htext.symm.trans he)
      refine iff_of_false (fun h => ?_) (not_not.mpr hkind)
      cases h _ rfl
    · rename_i h
      rw [htext] at h
      cases h
  · by_cases hv : Records.validateRecord record true = .ok ()
    · refine submitRecord_alone (S := {record}) hv rfl fun status t _ _ => ?_
      exact iff_of_true raises_ok hkind
    · unfold submitRecord
      split
      · rename_i e he
        have hvalue : e.type.isValueError = true := Records.validateRecord_raises hkind e he
        refine iff_of_true ?_ hkind
        rintro _ ⟨⟩
        rw [submitException, if_pos hvalue]
        rfl
      · rename_i h
        exact absurd h hv

theorem importBatch_contained (batch : Json) :
    (importBatch batch).Alone (environment rpcAnswers) (fun _ => True) (fun r _ => Contained r) s :=
  importBatch_alone (fun _ _ _ _ => raises_ok) fun _ _ he _ => by
    rintro _ ⟨⟩
    exact he

omit [Ed25519] in
/-- What is stored for a reference fits if a locally checked row stands at its point, and otherwise
if the integers of the reference do. -/
theorem localReference_fits_iff {a : Json} {existing : Option Anchor}
    (hrow : ∀ row, existing = some row → row.Fits) (hvout : sqliteInt (a.nat "vout")) :
    (localReference a existing).Fits ↔ (∃ row, existing = some row ∧ row.status ≠ .unverified) ∨
      sqliteInt (a.nat "anchored_at") ∧
        ∀ n, a.get "block_height" = some (.int n) → sqliteInt n := by
  have hheight : sqliteInt ((localReference a none).blockHeight.getD 0) ↔
      ∀ n, a.get "block_height" = some (.int n) → sqliteInt n := by
    simp only [localReference]
    split
    · rename_i n hn
      rw [hn]
      exact ⟨fun h m hm => by obtain rfl := Json.int.inj (Option.some.inj hm); exact h,
        fun h => h n rfl⟩
    · rename_i hno
      exact iff_of_true (by decide) fun n hn => absurd hn (hno n)
  unfold localReference
  cases existing with
  | none =>
    simp only [reduceCtorEq, false_and, exists_false, false_or]
    exact (and_iff_right hvout).trans (and_congr_right' hheight)
  | some row =>
    dsimp only
    by_cases hst : row.status = .unverified
    · rw [if_pos hst]
      refine (and_iff_right hvout).trans ((and_congr_right' hheight).trans (or_iff_right ?_).symm)
      rintro ⟨_, ⟨⟩, hne⟩
      exact hne hst
    · rw [if_neg hst]
      exact iff_of_true ⟨hvout, (hrow row rfl).2⟩ (.inl ⟨row, rfl, hst⟩)

omit [Ed25519] in
theorem not_contained_overflow {α : Type} : ¬ Contained (.error Store.overflow : Py α) :=
  fun h => nomatch h _ rfl

/-- Writing the reference fails if no locally checked row stands at its point and an integer of it
does not fit. -/
theorem addAnchor_contained_iff {a : Json} (hbatch : ∃ b ∈ s.batches, b.batchId = a.text "batch_id")
    {existing : Option Anchor} (hrow : ∀ row, existing = some row → row.Fits)
    (hvout : sqliteInt (a.nat "vout")) :
    Contained (s.addAnchor (localReference a existing)).1 ↔
      ¬((∀ row, existing = some row → row.status = .unverified) ∧
        (¬ sqliteInt (a.nat "anchored_at") ∨
          ∃ n, a.get "block_height" = some (.int n) ∧ ¬ sqliteInt n)) := by
  have hiff := localReference_fits_iff hrow hvout
  have hem := Classical.em (localReference a existing).Fits
  cases hem with
  | inl hfit =>
    have hid : ∃ b ∈ s.batches, b.batchId = (localReference a existing).batchId := by
      rw [localReference_batchId]
      exact hbatch
    have hadd : s.addAnchor (localReference a existing) = _ := (if_pos hfit).trans (dif_pos hid)
    rw [hadd]
    refine iff_of_true raises_ok ?_
    rintro ⟨hunverified, hbig⟩
    rcases hiff.mp hfit with ⟨row, hr, hne⟩ | ⟨hat, hheight⟩
    · exact hne (hunverified row hr)
    · rcases hbig with hbig | ⟨n, hn, hbig⟩
      · exact hbig hat
      · exact hbig (hheight n hn)
  | inr hfit =>
    have hadd : s.addAnchor (localReference a existing) = (.error Store.overflow, s) := if_neg hfit
    rw [hadd]
    refine iff_of_false not_contained_overflow (not_not.mpr ?_)
    rw [hiff, not_or, not_and_or] at hfit
    push Not at hfit
    exact hfit

/-- A reference is refused in good order unless one of its integers does not fit. -/
theorem importAnchorReference_contained (hfits : s.AnchorsFit) (a : Json) :
    (importAnchorReference a).Alone (environment rpcAnswers) (fun _ => True)
      (fun r _ => Contained r ↔ ¬ s.Overflows a) s := by
  have hraise : ∀ {α : Type} {type : ExcType} {text : PyStr}, type.isServiceError = true →
      Contained (.error ⟨type, text⟩ : Py α) := by
    rintro α type text h _ ⟨⟩
    exact h
  simp only [importAnchorReference, wrapped, bind_eq, Alone, ensures_bind, ensures_ofExcept]
  cases hv : Anchors.validateAnchorReference a with
  | error e =>
    refine iff_of_true (hraise rfl) fun h => ?_
    rw [h.valid] at hv
    cases hv
  | ok _ =>
    simp only [rethrow, thenOk_ok, ensures_bind, storage_ensures, forall_eq', Store.run, true_and]
    cases hfind : s.batches.find? (a.text "batch_id") with
    | none =>
      refine iff_of_true (hraise rfl) fun h => ?_
      obtain ⟨b, hb, hid, -⟩ := h.batch
      exact Table.find?_eq_none.mp hfind b hb hid
    | some b =>
      obtain ⟨hb, hid⟩ := Table.find?_eq_some.mp hfind
      simp only [check, ensures_bind, ensures_ofExcept, require]
      by_cases hnetwork : a.text "network" = b.network
      · simp only [if_pos hnetwork, thenOk_ok, ensures_bind, storage_ensures, forall_eq',
          Store.run, true_and]
        have hstored : ∃ b ∈ s.batches, b.batchId = a.text "batch_id" ∧
            a.text "network" = b.network := ⟨b, hb, hid, hnetwork⟩
        have hem := Classical.em (sqliteInt (a.nat "vout"))
        cases hem with
        | inl hvout =>
          have hanchor : s.anchor (a.text "txid", a.nat "vout") =
              .ok (s.anchors.find? (refPoint a)) := if_pos hvout
          have hrows : ∀ row, s.anchors.find? (refPoint a) = some row → row.Fits := fun row hrow =>
            hfits row (Table.find?_eq_some.mp hrow).1
          simp only [hanchor, thenOk_ok, ensures_bind, ensures_ofExcept]
          by_cases hall : (s.anchors.find? (refPoint a)).all
              (fun row => row.batchId = a.text "batch_id") = true
          · have hsame : ∀ row, s.anchors.find? (refPoint a) = some row →
                row.batchId = a.text "batch_id" := fun row hrow => by
              rw [hrow] at hall
              exact of_decide_eq_true hall
            have hadd := addAnchor_contained_iff ⟨b, hb, hid⟩ hrows hvout
            have hiff : ¬ s.Overflows a ↔
                Contained (s.addAnchor (localReference a (s.anchors.find? (refPoint a)))).1 := by
              rw [hadd, not_iff_not]
              constructor
              · intro h
                obtain ⟨hrow, hbig⟩ := h.big.resolve_left (not_not.mpr hvout)
                exact ⟨fun row hr => (hrow row hr).2, hbig⟩
              · rintro ⟨hrow, hbig⟩
                exact ⟨hv, hstored, .inr ⟨fun row hr => ⟨hsame row hr, hrow row hr⟩, hbig⟩⟩
            simp only [if_pos hall, thenOk_ok, ensures_bind, storage_ensures, forall_eq',
              Store.run, true_and, hiff]
            generalize (s.addAnchor (localReference a (s.anchors.find? (refPoint a)))).1 = r
            cases r with
            | ok created => exact iff_of_true raises_ok raises_ok
            | error e => exact ⟨fun h => by rintro _ ⟨⟩; exact h e rfl,
                fun h => by rintro _ ⟨⟩; exact h e rfl⟩
          · rw [if_neg hall]
            refine iff_of_true (hraise rfl) fun h => hall ?_
            rcases h.big with h | ⟨h, -⟩
            · exact absurd hvout h
            · cases hrow : s.anchors.find? (refPoint a) with
              | none => rfl
              | some row => exact decide_eq_true (h row hrow).1
        | inr hvout =>
          have hanchor : s.anchor (a.text "txid", a.nat "vout") = .error Store.overflow :=
            if_neg hvout
          simp only [hanchor]
          exact iff_of_false not_contained_overflow (not_not.mpr ⟨hv, hstored, .inl hvout⟩)
      · rw [if_neg hnetwork]
        refine iff_of_true (hraise rfl) fun h => ?_
        obtain ⟨b', hb', hid', hnetwork'⟩ := h.batch
        rw [Table.eq_of_key hb' hb (hid'.trans hid.symm)] at hnetwork'
        exact hnetwork hnetwork'

end Service

/-- Which items of a peer end the sync: a record whose kind is a list or a dictionary, and a
reference to a stored batch with an integer that does not fit; batches never do. -/
theorem peer_item_contained_iff (hs : s.Reached B) (item : Json) :
    (∀ r s', (Service.submitRecord item false Service.noPolicy).Exec (environment rpcAnswers) s r s' →
      (Contained r ↔ ¬ Records.UnhashableKind item)) ∧
    (∀ r s', (Service.importBatch item).Exec (environment rpcAnswers) s r s' → Contained r) ∧
    ∀ r s', (Service.importAnchorReference item).Exec (environment rpcAnswers) s r s' →
      (Contained r ↔ ¬ s.Overflows item) :=
  ⟨fun _ _ hx => (Service.submitRecord_contained item).exec (fun _ => rfl) hx,
    fun _ _ hx => (Service.importBatch_contained item).exec (fun _ => rfl) hx,
    fun _ _ hx => (Service.importAnchorReference_contained hs.anchorsFit item).exec (fun _ => rfl) hx⟩

end Containment

section Conformance

attribute [local instance] conformanceKeys

def listKindRecord : Json :=
  .obj [
    ("schema", .str "hap.record"), ("version", .int 1), ("kind", .arr []),
    ("created_at", .null), ("event_time", .null), ("author_id", .null),
    ("author_public_key", .null), ("title", .null), ("statement", .null),
    ("target_record_id", .null), ("sources", .null), ("evidence", .null), ("tags", .null),
    ("signature", .null), ("record_id", .null)]

/-- A reference to the batch of the conformance vector at an output number of 64 bits. -/
def hugeReference : Json :=
  .obj [
    ("txid", .str "5ca8c08e0aefbc9ecced864f9499b9f7c2b8af326257f6de2f9dd5488ba356fd"),
    ("vout", .int (2 ^ 63)),
    ("batch_id", .str "5ca8c08e0aefbc9ecced864f9499b9f7c2b8af326257f6de2f9dd5488ba356fd"),
    ("network", .str "signet"), ("status", .str "unverified"), ("anchored_at", .int 0),
    ("block_hash", .null), ("block_height", .null)]

theorem listKindRecord_unhashable : Records.UnhashableKind listKindRecord :=
  ⟨_, rfl, by decide, by decide, by decide, by decide⟩

theorem hugeReference_overflows : conformanceStore.Overflows hugeReference where
  valid := by decide +kernel
  batch := ⟨storedBatch, List.mem_cons_self, by decide +kernel, by decide +kernel⟩
  big := .inl (by decide +kernel)

def offline : Oracle NodeCall Exc Store := respond fun _ _ _ => raise .requestError "offline"

theorem obeys_offline : Obeys offline (environment fun _ _ _ _ => True) :=
  obeys_respond fun _ _ _ => trivial

theorem peer_item_contained_iff_sample :
    (Contained ((Service.submitRecord listKindRecord false Service.noPolicy).eval offline
      conformanceStore).1 ↔ ¬ Records.UnhashableKind listKindRecord) ∧
    Contained ((Service.importBatch conformanceBatch).eval offline conformanceStore).1 ∧
    (Contained ((Service.importAnchorReference hugeReference).eval offline conformanceStore).1 ↔
      ¬ conformanceStore.Overflows hugeReference) :=
  ⟨(peer_item_contained_iff conformanceStore_reached _).1 _ _ (exec_eval obeys_offline _ _),
    (peer_item_contained_iff conformanceStore_reached _).2.1 _ _ (exec_eval obeys_offline _ _),
    (peer_item_contained_iff conformanceStore_reached _).2.2 _ _ (exec_eval obeys_offline _ _)⟩

/-- The list raises a `TypeError` and the large number an `OverflowError`. -/
theorem peer_item_not_contained :
    ¬ Contained ((Service.submitRecord listKindRecord false Service.noPolicy).eval offline
      conformanceStore).1 ∧
    ¬ Contained ((Service.importAnchorReference hugeReference).eval offline
      conformanceStore).1 := by
  refine ⟨fun h => ?_, fun h => ?_⟩
  · have hiff := (Service.submitRecord_contained listKindRecord).exec (fun _ => rfl)
      (exec_eval obeys_offline _ conformanceStore)
    exact hiff.mp h listKindRecord_unhashable
  · have hiff := (Service.importAnchorReference_contained conformanceStore_reached.anchorsFit
      hugeReference).exec (fun _ => rfl) (exec_eval obeys_offline _ conformanceStore)
    exact hiff.mp h hugeReference_overflows

end Conformance

end HistoryAnchor

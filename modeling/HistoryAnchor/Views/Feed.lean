import HistoryAnchor.Tables.Windows
import HistoryAnchor.Views.Context

/-! # The reference feed

The feed goes back over a bounded number of the latest records and lists the claims
among them whose view says so. It is complete within that window, and only there.
-/

namespace HistoryAnchor

open Python Tables Responsible

section Feed

variable [Ed25519] {s : Store} {e : EvidenceStore} {recognised : List PyStr}
  {cooling notice limit : ℤ} {r : Record} {rs : List Record} {output views : List RecordView}

def Store.latestRecords (s : Store) (limit : ℤ) : Py (List Record) :=
  query limit (limited limit s.records.rows.reverse)

namespace Service

def feedLoop (s : Store) (e : EvidenceStore) (limit : ℤ) (recognised : List PyStr)
    (coolingBlocks noticeProtectionBlocks : ℤ) :
    List Record → List RecordView → Py (List RecordView)
  | [], output => return output
  | record :: rest, output =>
    let next := feedLoop s e limit recognised coolingBlocks noticeProtectionBlocks rest
    if record.kind ≠ "claim" then next output
    else do
      let view ← recordView s e record.recordId recognised coolingBlocks noticeProtectionBlocks
      match view with
      | none => next output
      | some view =>
        let output :=
          if view.responsiblePublication.any View.listed then output ++ [view] else output
        if limit ≤ output.length then return output else next output

def lookBack (limit : ℤ) : ℤ := max (limit * 10) 100

def referenceFeed (s : Store) (e : EvidenceStore) (limit : ℤ) (recognised : List PyStr)
    (coolingBlocks noticeProtectionBlocks : ℤ) : Py (List RecordView) := do
  -- Scan beyond the requested output limit because protected records are omitted.
  let records ← s.latestRecords (lookBack limit)
  feedLoop s e limit recognised coolingBlocks noticeProtectionBlocks records []

/-- The record is a claim whose responsible-publication view says that it is listed. -/
def saysListed (s : Store) (recognised : List PyStr) (coolingBlocks noticeProtectionBlocks : ℤ)
    (r : Record) : Bool :=
  decide (r.kind = "claim") &&
    match responsiblePublicationView s r.recordId recognised coolingBlocks
      noticeProtectionBlocks with
    | .ok (some view) => view.listed
    | _ => false

/-- The claims that are listed, newest first, however far back they lie. -/
def listedClaims (s : Store) (recognised : List PyStr)
    (coolingBlocks noticeProtectionBlocks : ℤ) : List Record :=
  s.records.rows.reverse.filter (saysListed s recognised coolingBlocks noticeProtectionBlocks)

def feedWindow (s : Store) (limit : ℤ) : List Record :=
  s.records.rows.reverse.take (lookBack limit).toNat

def ClaimViewed (s : Store) (e : EvidenceStore) (recognised : List PyStr)
    (cooling notice : ℤ) (r : Record) : Prop :=
  r.kind = "claim" → ∃ v, recordView s e r.recordId recognised cooling notice = .ok v

theorem saysListed_of_recordView (hr : r ∈ s.records) (hk : r.kind = "claim")
    {v : Option RecordView} (hv : recordView s e r.recordId recognised cooling notice = .ok v) :
    ∃ w, v = some w ∧ w.record = r ∧ saysListed s recognised cooling notice r =
      w.responsiblePublication.any View.listed := by
  obtain ⟨w, rfl, hrecord, -, hresponsible⟩ := recordView_fields hr hv
  refine ⟨w, rfl, hrecord, ?_⟩
  rw [saysListed, hk, hresponsible, decide_eq_true rfl, Bool.true_and]
  cases w.responsiblePublication <;> rfl

theorem feedLoop_of_miss (hr : r ∈ s.records) (hv : ClaimViewed s e recognised cooling notice r)
    (hmiss : saysListed s recognised cooling notice r = false) (hlimit : output.length < limit) :
    feedLoop s e limit recognised cooling notice (r :: rs) output =
      feedLoop s e limit recognised cooling notice rs output := by
  rw [feedLoop]
  by_cases hk : r.kind = "claim"
  · obtain ⟨v, hv⟩ := hv hk
    obtain ⟨w, rfl, -, hsays⟩ := saysListed_of_recordView hr hk hv
    rw [hmiss] at hsays
    rw [if_neg (not_not.mpr hk), hv]
    simp only [bind, Except.bind, ← hsays, Bool.false_eq_true, if_false, if_neg hlimit.not_ge]
  · exact if_pos hk

/-- A listed record is put out, and the loop ends with the last one that was asked for. -/
theorem feedLoop_of_hit (limit : ℤ) (rs : List Record) (output : List RecordView)
    (hr : r ∈ s.records) (hv : ClaimViewed s e recognised cooling notice r)
    (hhit : saysListed s recognised cooling notice r = true) :
    ∃ w, w.record = r ∧ recordView s e r.recordId recognised cooling notice = .ok (some w) ∧
      feedLoop s e limit recognised cooling notice (r :: rs) output =
        if limit ≤ output.length + 1 then .ok (output ++ [w])
        else feedLoop s e limit recognised cooling notice rs (output ++ [w]) := by
  have hk : r.kind = "claim" := of_decide_eq_true (Bool.and_eq_true_iff.mp hhit).1
  obtain ⟨v, hv⟩ := hv hk
  obtain ⟨w, rfl, hrecord, hsays⟩ := saysListed_of_recordView hr hk hv
  rw [hhit] at hsays
  refine ⟨w, hrecord, hv, ?_⟩
  rw [feedLoop, if_neg (not_not.mpr hk), hv]
  simp only [bind, Except.bind, ← hsays, if_true, List.length_append, List.length_singleton, Nat.cast_add,
    Nat.cast_one]
  rfl

theorem claimViewed_of_feedLoop
    (h : feedLoop s e limit recognised cooling notice (r :: rs) output = .ok views) :
    ClaimViewed s e recognised cooling notice r := by
  intro hk
  rw [feedLoop, if_neg (not_not.mpr hk), bind_ok] at h
  obtain ⟨v, hv, -⟩ := h
  exact ⟨v, hv⟩

/-- The loop returns if the views of the claims up to the last one listed are produced. -/
theorem exists_feedLoop_iff {n : ℕ} (hrs : ∀ r ∈ rs, r ∈ s.records)
    (hn : output.length + (n + 1 : ℕ) = limit) :
    (∃ views, feedLoop s e limit recognised cooling notice rs output = .ok views) ↔
      ∀ r ∈ upTo (saysListed s recognised cooling notice) (n + 1) rs,
        ClaimViewed s e recognised cooling notice r := by
  induction rs generalizing n output with
  | nil => exact iff_of_true ⟨output, rfl⟩ fun r hr => absurd hr List.not_mem_nil
  | cons r rs ih =>
    obtain ⟨hr, hrest⟩ := List.forall_mem_cons.mp hrs
    by_cases hv : ClaimViewed s e recognised cooling notice r
    · cases hsays : saysListed s recognised cooling notice r with
      | false =>
        rw [feedLoop_of_miss hr hv hsays (by omega), upTo_cons_of_miss hsays,
          List.forall_mem_cons, ih hrest hn]
        exact (and_iff_right hv).symm
      | true =>
        obtain ⟨w, -, -, hloop⟩ := feedLoop_of_hit limit rs output hr hv hsays
        rw [hloop, upTo_cons_of_hit hsays, List.forall_mem_cons, and_iff_right hv]
        cases n with
        | zero =>
          rw [if_pos (by omega), upTo_zero]
          exact iff_of_true ⟨_, rfl⟩ fun r hr => absurd hr List.not_mem_nil
        | succ n =>
          have hnext : (output ++ [w]).length + (n + 1 : ℕ) = limit := by
            rw [List.length_append, List.length_singleton]
            omega
          rw [if_neg (by omega), ih hrest hnext]
    · refine iff_of_false (fun ⟨views, h⟩ => hv (claimViewed_of_feedLoop h)) fun h => hv (h r ?_)
      rw [upTo]
      exact List.mem_cons_self

theorem feedLoop_ok {n : ℕ} (hrs : ∀ r ∈ rs, r ∈ s.records)
    (hn : output.length + (n + 1 : ℕ) = limit)
    (h : feedLoop s e limit recognised cooling notice rs output = .ok views) :
    ∃ vs, views = output ++ vs ∧ vs.map RecordView.record =
        (rs.filter (saysListed s recognised cooling notice)).take (n + 1) ∧
      ∀ v ∈ vs, recordView s e v.record.recordId recognised cooling notice = .ok (some v) := by
  induction rs generalizing n output with
  | nil =>
    obtain rfl := Except.ok.inj h
    exact ⟨[], (List.append_nil _).symm, rfl, fun v hv => absurd hv List.not_mem_nil⟩
  | cons r rs ih =>
    obtain ⟨hr, hrest⟩ := List.forall_mem_cons.mp hrs
    have hv := claimViewed_of_feedLoop h
    cases hsays : saysListed s recognised cooling notice r with
    | false =>
      rw [feedLoop_of_miss hr hv hsays (by omega)] at h
      rw [List.filter_cons_of_neg (Bool.not_eq_true _ ▸ hsays)]
      exact ih hrest hn h
    | true =>
      obtain ⟨w, hrecord, hw, hloop⟩ := feedLoop_of_hit limit rs output hr hv hsays
      rw [hloop] at h
      rw [List.filter_cons_of_pos hsays, List.take_succ_cons]
      rw [← hrecord] at hw
      cases n with
      | zero =>
        rw [if_pos (by omega)] at h
        obtain rfl := Except.ok.inj h
        refine ⟨[w], rfl, ?_, List.forall_mem_singleton.mpr hw⟩
        rw [List.map_singleton, hrecord, List.take_zero]
      | succ n =>
        rw [if_neg (by omega)] at h
        have hnext : (output ++ [w]).length + (n + 1 : ℕ) = limit := by
          rw [List.length_append, List.length_singleton]
          omega
        obtain ⟨vs, rfl, hmap, hvs⟩ := ih hrest hnext h
        refine ⟨w :: vs, List.append_assoc _ _ _, ?_, List.forall_mem_cons.mpr ⟨hw, hvs⟩⟩
        rw [List.map_cons, hrecord, hmap]

/-- The feed returns if its look-back is an integer of SQLite and the views of the claims up to the
last one listed are produced. It lists the first claims of its window that are listed, and these are
the first of all that are listed exactly if the window holds enough of them or nothing older is. -/
theorem referenceFeed_of_window (hlimit : 1 ≤ limit) :
    ((∃ views, referenceFeed s e limit recognised cooling notice = .ok views) ↔
      sqliteInt (lookBack limit) ∧
        ∀ r ∈ upTo (saysListed s recognised cooling notice) limit.toNat (feedWindow s limit),
          r.kind = "claim" →
            ∃ v, recordView s e r.recordId recognised cooling notice = .ok v) ∧
    ∀ views, referenceFeed s e limit recognised cooling notice = .ok views →
      (∀ v ∈ views,
        recordView s e v.record.recordId recognised cooling notice = .ok (some v)) ∧
      views.map RecordView.record = ((feedWindow s limit).filter
        (saysListed s recognised cooling notice)).take limit.toNat ∧
      (views.map RecordView.record =
          (listedClaims s recognised cooling notice).take limit.toNat ↔
        limit.toNat ≤
            ((feedWindow s limit).filter (saysListed s recognised cooling notice)).length ∨
          ∀ r ∈ s.records.rows.reverse.drop (lookBack limit).toNat,
            saysListed s recognised cooling notice r = false) := by
  obtain ⟨n, rfl⟩ : ∃ n : ℕ, limit = (n + 1 : ℕ) := ⟨limit.toNat - 1, by omega⟩
  have hpos : ¬lookBack (n + 1 : ℕ) < 0 := by rw [lookBack]; omega
  have hlatest : ∀ xs : List Record, s.latestRecords (lookBack (n + 1 : ℕ)) = .ok xs ↔
      sqliteInt (lookBack (n + 1 : ℕ)) ∧ xs = feedWindow s (n + 1 : ℕ) := by
    intro xs
    rw [Store.latestRecords, Store.query, Store.limited, if_neg hpos, feedWindow]
    split_ifs with h
    · exact ⟨fun hx => ⟨h, (Except.ok.inj hx).symm⟩, fun hx => by rw [hx.2]⟩
    · refine iff_of_false (fun hx => ?_) fun hx => h hx.1
      cases hx
  have hstored : ∀ r ∈ feedWindow s (n + 1 : ℕ), r ∈ s.records := fun r hr =>
    List.mem_reverse.mp (List.mem_of_mem_take hr)
  have hlength : ([] : List RecordView).length + (n + 1 : ℕ) = ((n + 1 : ℕ) : ℤ) := by
    rw [List.length_nil]
    omega
  rw [Int.toNat_natCast]
  constructor
  · simp only [referenceFeed, exists_bind_ok, hlatest, and_assoc, exists_and_left,
      exists_eq_left]
    exact and_congr_right fun _ => exists_feedLoop_iff hstored hlength
  · intro views h
    rw [referenceFeed, bind_ok] at h
    obtain ⟨xs, hxs, h⟩ := h
    obtain ⟨-, rfl⟩ := (hlatest xs).mp hxs
    obtain ⟨vs, rfl, hmap, hvs⟩ := feedLoop_ok hstored hlength h
    refine ⟨hvs, hmap, ?_⟩
    rw [hmap]
    exact take_filter_take_iff

end Service

end Feed

section Witness

attribute [local instance] feedKeys

def linkedAnchor : Anchor where
  txid := List.replicate 64 0x61
  vout := 0
  batchId := linkedBatchRow.batchId
  network := linkedBatchRow.network
  status := .confirmed
  anchoredAt := 100
  blockHash := none
  blockHeight := some 100

/-- The claim and the notices about it, anchored together, ten blocks later. -/
def feedStore : Store :=
  ((batchedStore.run (.addAnchor linkedAnchor)).2.run (.addScannedBlock ⟨110, "0a", 0⟩)).2

theorem saysListed_feedStore :
    Service.saysListed feedStore [] 6 6 restrictionNotice = false ∧
      Service.saysListed feedStore [] 6 6 impactNotice = false ∧
      Service.saysListed feedStore [] 6 6 harmlessClaim = true := by decide +kernel

theorem exists_recordView_harmlessClaim :
    ∃ v, Service.recordView feedStore .empty harmlessClaim.recordId [] 6 6 = .ok v := by
  have hsome : (Service.recordView feedStore .empty harmlessClaim.recordId [] 6
      6).toOption.isSome = true := by decide +kernel
  cases h : Service.recordView feedStore .empty harmlessClaim.recordId [] 6 6 with
  | ok v => exact ⟨v, rfl⟩
  | error e =>
    rw [h] at hsome
    cases hsome

open Service in
/-- The window goes back over the two notices to the claim, which is all that is listed. -/
theorem referenceFeed_of_window_sample : ∃ views,
    referenceFeed feedStore .empty 50 [] 6 6 = .ok views ∧
      views.map RecordView.record = [harmlessClaim] ∧
      views.map RecordView.record = (listedClaims feedStore [] 6 6).take 50 := by
  obtain ⟨hrestriction, hnotice, hclaim⟩ := saysListed_feedStore
  have hwindow : feedWindow feedStore 50 = [restrictionNotice, impactNotice, harmlessClaim] := rfl
  have hfeed := @referenceFeed_of_window _ feedStore .empty [] 6 6 50 (by decide)
  have hpassed : upTo (saysListed feedStore [] 6 6) 50 (feedWindow feedStore 50) =
      [restrictionNotice, impactNotice, harmlessClaim] := by
    rw [hwindow, upTo_cons_of_miss hrestriction, upTo_cons_of_miss hnotice, upTo_cons_of_hit hclaim]
    rfl
  obtain ⟨views, hviews⟩ := hfeed.1.mpr ⟨by decide, by
    rw [show (50 : ℤ).toNat = 50 from rfl, hpassed]
    simp only [List.forall_mem_cons]
    refine ⟨fun h => ?_, fun h => ?_, fun _ => exists_recordView_harmlessClaim,
      fun _ h => absurd h List.not_mem_nil⟩
    · exact absurd h (by decide +kernel)
    · exact absurd h (by decide +kernel)⟩
  obtain ⟨-, hlisted, hall⟩ := hfeed.2 views hviews
  refine ⟨views, hviews, ?_, hall.mpr (Or.inr fun r hr => absurd hr List.not_mem_nil)⟩
  rw [hlisted, hwindow, List.filter_cons_of_neg (by rw [hrestriction]; exact Bool.false_ne_true),
    List.filter_cons_of_neg (by rw [hnotice]; exact Bool.false_ne_true),
    List.filter_cons_of_pos hclaim]
  rfl

end Witness

end HistoryAnchor

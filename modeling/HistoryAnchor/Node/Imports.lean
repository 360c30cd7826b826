import HistoryAnchor.Effects.Scripts
import HistoryAnchor.Node.Reached
import HistoryAnchor.Protocol.Shapes
import HistoryAnchor.Protocol.Uniqueness
import HistoryAnchor.Scan.Steps

/-! # What an import does

Run alone, the import of valid records stores those that do not wait for each other
and raises if there are others; without a cycle of targets there are none. A batch is
stored exactly if it is valid and its records are there.
-/

namespace HistoryAnchor

open Python Effects Prog Tables

/-- The targets of the records can be ranked, so that there is no cycle of targets. -/
def Acyclic (S : Set Json) : Prop :=
  ∃ rank : PyStr → ℕ, ∀ r ∈ S, r.text "target_record_id" ≠ [] →
    rank (r.text "target_record_id") < rank (r.text "record_id")

def Waits (has : PyStr → Prop) (pending : List Json) (r : Json) : Prop :=
  r.text "target_record_id" ≠ [] ∧ ¬ has (r.text "target_record_id") ∧
    r.text "target_record_id" ∈ pending.map (Json.text · "record_id")

def Stuck (has : PyStr → Prop) (rs : List Json) (r : Json) : Prop :=
  ∃ X, r ∈ X ∧ X ⊆ rs ∧ ∀ x ∈ X, Waits has X x

theorem Stuck.waits {has : PyStr → Prop} {rs : List Json} {r : Json} (h : Stuck has rs r) :
    r ∈ rs ∧ r.text "target_record_id" ≠ [] ∧ ¬ has (r.text "target_record_id") ∧
    ∃ x, Stuck has rs x ∧ x.text "record_id" = r.text "target_record_id" := by
  obtain ⟨X, hr, hsub, hwaits⟩ := h
  obtain ⟨hne, hnot, hm⟩ := hwaits r hr
  obtain ⟨x, hx, he⟩ := List.mem_map.mp hm
  exact ⟨hsub hr, hne, hnot, x, ⟨X, hx, hsub, hwaits⟩, he⟩

theorem not_stuck_of_acyclic {has : PyStr → Prop} {rs : List Json}
    (hacyclic : Acyclic {r | r ∈ rs}) (r : Json) : ¬ Stuck has rs r := by
  rintro ⟨X, hr, hsub, hwaits⟩
  obtain ⟨rank, hrank⟩ := hacyclic
  cases hmin : X.argmin fun r => rank (r.text "record_id") with
  | none =>
    rw [List.argmin_eq_none.mp hmin] at hr
    exact absurd hr List.not_mem_nil
  | some m =>
    have hm : m ∈ X := List.argmin_mem hmin
    obtain ⟨hne, -, htarget⟩ := hwaits m hm
    obtain ⟨x, hx, he⟩ := List.mem_map.mp htarget
    have hlt := hrank m (hsub hm) hne
    have hle := List.le_of_mem_argmin hx hmin
    rw [he] at hle
    omega

variable [Ed25519] {rpcAnswers : Answers} {s t u : Store} {rs : List Json} {S : Set Json}

namespace Store

def Has (s : Store) (recordId : PyStr) : Prop := ∃ row ∈ s.records, row.recordId = recordId

theorem find?_isSome_iff_has {recordId : PyStr} :
    (s.records.find? recordId).isSome ↔ s.Has recordId := Table.find?_isSome

/-- From `s` to `t` some of the records are added, where none is stored yet. -/
structure Adds (s t : Store) (S : Set Json) : Prop where
  batches : t.batches = s.batches
  recordBatches : t.recordBatches = s.recordBatches
  anchors : t.anchors = s.anchors
  bitcoinBlocks : t.bitcoinBlocks = s.bitcoinBlocks
  commitments : t.commitments = s.commitments
  kept : ∀ row ∈ s.records, row ∈ t.records
  new : ∀ row ∈ t.records, row ∈ s.records ∨ row.body ∈ S
  same : (∀ r ∈ S, s.Has (r.text "record_id")) → t.records = s.records

namespace Adds

theorem refl (s : Store) (S : Set Json) : s.Adds s S :=
  ⟨rfl, rfl, rfl, rfl, rfl, fun _ h => h, fun _ h => Or.inl h, fun _ => rfl⟩

theorem has {recordId : PyStr} (h : s.Adds t S) (hs : s.Has recordId) : t.Has recordId := by
  obtain ⟨row, hrow, hid⟩ := hs
  exact ⟨row, h.kept row hrow, hid⟩

theorem trans (h : s.Adds t S) (h' : t.Adds u S) : s.Adds u S where
  batches := h'.batches.trans h.batches
  recordBatches := h'.recordBatches.trans h.recordBatches
  anchors := h'.anchors.trans h.anchors
  bitcoinBlocks := h'.bitcoinBlocks.trans h.bitcoinBlocks
  commitments := h'.commitments.trans h.commitments
  kept row hrow := h'.kept row (h.kept row hrow)
  new row hrow := (h'.new row hrow).elim (h.new row) Or.inr
  same hall := (h'.same fun r hr => h.has (hall r hr)).trans (h.same hall)

end Adds

theorem adds_addRecord {r : Record} (hnew : ¬ s.Has r.recordId) (hr : r.body ∈ S) :
    s.Adds (s.addRecord r) S where
  batches := rfl
  recordBatches := rfl
  anchors := rfl
  bitcoinBlocks := rfl
  commitments := rfl
  kept row hrow := Table.mem_insertIgnore.mpr (Or.inl hrow)
  new row hrow := (Table.mem_insertIgnore.mp hrow).imp id fun h => by rw [h.1]; exact hr
  same hall := absurd (hall r.body hr) hnew

theorem has_addRecord_iff {r : Record} {recordId : PyStr} :
    (s.addRecord r).Has recordId ↔ s.Has recordId ∨ recordId = r.recordId := by
  constructor
  · rintro ⟨row, hrow, rfl⟩
    rcases Table.mem_insertIgnore.mp hrow with hrow | ⟨rfl, -⟩
    · exact Or.inl ⟨row, hrow, rfl⟩
    · exact Or.inr rfl
  · rintro (⟨row, hrow, hid⟩ | rfl)
    · exact ⟨row, Table.mem_insertIgnore.mpr (Or.inl hrow), hid⟩
    · by_cases hex : s.Has r.recordId
      · obtain ⟨row, hrow, hid⟩ := hex
        exact ⟨row, Table.mem_insertIgnore.mpr (Or.inl hrow), hid⟩
      · have hnew : ∀ row ∈ s.records, row.recordId ≠ r.recordId := fun row hrow he =>
          hex ⟨row, hrow, he⟩
        exact ⟨r, Table.mem_insertIgnore.mpr (Or.inr ⟨rfl, hnew⟩), rfl⟩

/-- What an import has done so far: the records that are not pending are stored, and those that
wait for each other are still pending. -/
structure Importing (s₀ : Store) (rs : List Json) (s : Store) (pending : List Json) : Prop where
  adds : s₀.Adds s {r | r ∈ rs ∧ ¬ Stuck s₀.Has rs r}
  sublist : pending.Sublist rs
  stored : ∀ r ∈ rs, r ∈ pending ∨ s.Has (r.text "record_id")
  stuck : ∀ r, Stuck s₀.Has rs r → r ∈ pending ∧ ¬ s.Has (r.text "target_record_id")

theorem importing_start (s : Store) (rs : List Json) : s.Importing rs s rs where
  adds := .refl s _
  sublist := .refl rs
  stored _ hr := Or.inl hr
  stuck _ hr := ⟨hr.waits.1, hr.waits.2.2.1⟩

namespace Importing

variable {s₀ : Store} {pending : List Json} {r : Json}

theorem waits (h : s₀.Importing rs s pending) (hr : Stuck s₀.Has rs r) : Waits s.Has pending r := by
  obtain ⟨-, hne, -, x, hx, he⟩ := hr.waits
  exact ⟨hne, (h.stuck r hr).2, List.mem_map.mpr ⟨x, (h.stuck x hx).1, he⟩⟩

theorem submit (h : s₀.Importing rs s pending) (hn : (rs.map (Json.text · "record_id")).Nodup)
    (hr : r ∈ pending) (hfree : ¬ Waits s.Has pending r) {t : Store}
    (hadds : s.Adds t {x | x ∈ rs ∧ ¬ Stuck s₀.Has rs x})
    (hhas : ∀ i, t.Has i ↔ s.Has i ∨ i = r.text "record_id") :
    s₀.Importing rs t (pending.filter fun x => x.text "record_id" ≠ r.text "record_id") := by
  have hrs : r ∈ rs := h.sublist.subset hr
  have hnot : ¬ Stuck s₀.Has rs r := fun hst => hfree (h.waits hst)
  have hother : ∀ x, Stuck s₀.Has rs x → x.text "record_id" ≠ r.text "record_id" := by
    intro x hx he
    exact hnot (List.inj_on_of_nodup_map hn hx.waits.1 hrs he ▸ hx)
  constructor
  · exact h.adds.trans hadds
  · exact List.filter_sublist.trans h.sublist
  · intro x hx
    by_cases hid : x.text "record_id" = r.text "record_id"
    · exact Or.inr ((hhas _).mpr (Or.inr hid))
    · rcases h.stored x hx with hp | hs
      · exact Or.inl (List.mem_filter.mpr ⟨hp, decide_eq_true hid⟩)
      · exact Or.inr ((hhas _).mpr (Or.inl hs))
  · intro x hx
    obtain ⟨hp, hs⟩ := h.stuck x hx
    refine ⟨List.mem_filter.mpr ⟨hp, decide_eq_true (hother x hx)⟩, fun ht => ?_⟩
    obtain ⟨-, -, -, y, hy, he⟩ := hx.waits
    rcases (hhas _).mp ht with ht | ht
    · exact hs ht
    · exact hother y hy (he.trans ht)

theorem stuck_of_waits (h : s₀.Importing rs s pending) (hall : ∀ r ∈ pending, Waits s.Has pending r)
    (hr : r ∈ pending) : Stuck s₀.Has rs r := by
  refine ⟨pending, hr, h.sublist.subset, fun x hx => ?_⟩
  obtain ⟨hne, hnot, hm⟩ := hall x hx
  exact ⟨hne, fun hs => hnot (h.adds.has hs), hm⟩

theorem finished (h : s₀.Importing rs s []) {P : Prop}
    (done : (∀ r, ¬ Stuck s₀.Has rs r) → s₀.Adds s {r | r ∈ rs} →
      (∀ r ∈ rs, s.Has (r.text "record_id")) → P) : P := by
  have hfree : ∀ r, ¬ Stuck s₀.Has rs r := fun r hr => List.not_mem_nil (h.stuck r hr).1
  have hall : {r | r ∈ rs ∧ ¬ Stuck s₀.Has rs r} = {r | r ∈ rs} :=
    Set.ext fun r => and_iff_left (hfree r)
  exact done hfree (hall ▸ h.adds) fun r hr => (h.stored r hr).resolve_left List.not_mem_nil

end Importing

end Store

namespace Service

theorem submitRecord_calls_of {P : ∀ ⦃β : Type⦄, NodeCall β → Prop} {record : Json}
    (hread : ∀ recordId, P (.storage (.record recordId)))
    (hadd : ∀ hv, P (.storage (.addRecord ⟨record, hv⟩))) (requireLocalTarget : Bool)
    (localPolicy : Json → Py Unit) : (submitRecord record requireLocalTarget localPolicy).Calls P := by
  unfold submitRecord
  split
  · exact calls_raise _
  · refine (calls_ofExcept _).bind fun _ => ?_
    refine (calls_perform (hread _)).bind fun existing => ?_
    have hstore : ∀ hv, Calls P
        (do let _ ← storage (.addRecord ⟨record, hv⟩); return Service.Status.accepted) := fun hv =>
      (calls_perform (hadd hv)).bind fun _ => calls_ret _
    split_ifs
    · exact calls_ret _
    · refine (calls_perform (hread _)).bind fun target => ?_
      split_ifs
      · exact (calls_raise _).bind fun _ => hstore _
      · exact hstore _
    · exact hstore _

theorem submitRecord_alone {record : Json} {Q : Py Status → Store → Prop}
    (hv : Records.validateRecord record true = .ok ()) (hS : record ∈ S)
    (done : ∀ status t, s.Adds t S → (∀ i, t.Has i ↔ s.Has i ∨ i = record.text "record_id") →
      Q (.ok status) t) :
    (submitRecord record false noPolicy).Alone (environment rpcAnswers) (fun _ => True) Q s := by
  unfold submitRecord
  split
  · rename_i e he
    rw [hv] at he
    cases he
  · rename_i h
    simp only [noPolicy, rethrow, bind_eq, ensures_bind, ensures_ofExcept, storage_ensures,
      forall_eq', Store.run, thenOk_ok, true_and, Alone]
    by_cases hex : s.Has (Record.mk record h).recordId
    · rw [if_pos (Store.find?_isSome_iff_has.mpr hex)]
      apply done _ s (.refl s _)
      intro i
      exact (or_iff_left_of_imp fun he => he ▸ hex).symm
    · rw [if_neg (mt Store.find?_isSome_iff_has.mp hex)]
      simp only [Bool.false_eq_true, false_and, if_false, ensures_bind, storage_ensures, forall_eq',
        Store.run, thenOk_ok, true_and]
      exact done _ _ (Store.adds_addRecord hex hS) fun _ => Store.has_addRecord_iff

/-- One pass goes on with the import; where it stores nothing, every record waits. -/
theorem importPass_alone {s₀ : Store} {todo pending : List Json} {imported : ℕ}
    {Q : Py (List Json × ℕ) → Store → Prop}
    (hv : ∀ r ∈ rs, Records.validateRecord r true = .ok ())
    (hn : (rs.map (Json.text · "record_id")).Nodup) (hs : s₀.Importing rs s pending)
    (htodo : todo ⊆ pending) (hdistinct : (todo.map (Json.text · "record_id")).Nodup)
    (done : ∀ rest n t, s₀.Importing rs t rest → rest.Sublist pending →
      (rest = pending → ∀ r ∈ todo, Waits s.Has pending r) → Q (.ok (rest, n)) t) :
    (importPass todo pending imported).Alone (environment rpcAnswers) (fun _ => True) Q s := by
  induction todo generalizing s pending imported with
  | nil => exact done pending imported s hs (.refl pending) fun _ r hr => absurd hr List.not_mem_nil
  | cons record todo ih =>
    obtain ⟨hrecord, htodo⟩ := List.cons_subset.mp htodo
    rw [List.map_cons, List.nodup_cons] at hdistinct
    have hpass : ∀ stored : Bool,
        (stored = true ↔ record.text "target_record_id" = [] ∨
          s.Has (record.text "target_record_id")) →
        Ensures (environment rpcAnswers) Eq (fun _ _ => True)
        (if !stored ∧ record.text "target_record_id" ∈ pending.map (Json.text · "record_id") then
          importPass todo pending imported
        else do
          let result ← submitRecord record false noPolicy
          importPass todo (pending.filter fun r => r.text "record_id" ≠ record.text "record_id")
            (if result = .accepted then imported + 1 else imported)) Q s := by
      intro stored hstored
      have hwaits : (!stored ∧ record.text "target_record_id" ∈
          pending.map (Json.text · "record_id")) ↔ Waits s.Has pending record := by
        rw [Waits, ← and_assoc, ← not_or, ← hstored, Bool.not_eq_true', Bool.not_eq_true]
      split_ifs with hwait
      · apply ih hs htodo hdistinct.2
        intro rest n t hs' hsub hall
        exact done rest n t hs' hsub fun he =>
          List.forall_mem_cons.mpr ⟨hwaits.mp hwait, hall he⟩
      · have hfree : ¬ Waits s.Has pending record := mt hwaits.mpr hwait
        have hrs : record ∈ rs := hs.sublist.subset hrecord
        have hnot : ¬ Stuck s₀.Has rs record := fun h => hfree (hs.waits h)
        simp only [bind_eq, ensures_bind]
        apply submitRecord_alone (hv record hrs) (S := {x | x ∈ rs ∧ ¬ Stuck s₀.Has rs x}) ⟨hrs, hnot⟩
        intro status t hadds hhas
        rw [thenOk_ok]
        apply ih (hs.submit hn hrecord hfree hadds hhas) _ hdistinct.2
        · intro rest n u hs' hsub _
          apply done rest n u hs' (hsub.trans List.filter_sublist)
          -- The record has left the pending ones.
          intro he
          have hm := hsub.subset (he ▸ hrecord)
          exact absurd rfl (of_decide_eq_true (List.mem_filter.mp hm).2)
        · intro x hx
          refine List.mem_filter.mpr ⟨htodo hx, decide_eq_true fun he => hdistinct.1 ?_⟩
          exact List.mem_map.mpr ⟨x, hx, he⟩
    simp only [importPass, bind_eq, pure_eq, Alone]
    split_ifs with htarget
    · exact hpass true (by simp [htarget])
    · rw [map_eq_pure_bind]
      simp only [bind_eq, pure_eq, ensures_bind, storage_ensures, forall_eq', Store.run, thenOk_ok,
        true_and, ensures_ret]
      exact hpass _ (Store.find?_isSome_iff_has.trans (or_iff_right htarget).symm)

/-- The import of valid records with distinct identifiers stores those that do not wait for each
other; if there are others it raises then. -/
theorem importPending_alone {s₀ : Store} {unresolved : PyStr} {fuel : ℕ} {pending : List Json}
    {imported : ℕ} {Q : Py ℕ → Store → Prop}
    (hv : ∀ r ∈ rs, Records.validateRecord r true = .ok ())
    (hn : (rs.map (Json.text · "record_id")).Nodup) (hs : s₀.Importing rs s pending)
    (hfuel : pending.length ≤ fuel)
    (done : ∀ n t, (∀ r, ¬ Stuck s₀.Has rs r) → s₀.Adds t {r | r ∈ rs} →
      (∀ r ∈ rs, t.Has (r.text "record_id")) → Q (.ok n) t)
    (stuck : ∀ t, (∃ r, Stuck s₀.Has rs r) → s₀.Adds t {r | r ∈ rs ∧ ¬ Stuck s₀.Has rs r} →
      (∀ r ∈ rs, Stuck s₀.Has rs r ∨ t.Has (r.text "record_id")) →
      Q (.error ⟨.serviceError, unresolved⟩) t) :
    (importPending unresolved fuel pending imported).Alone (environment rpcAnswers)
      (fun _ => True) Q s := by
  induction fuel generalizing s pending imported with
  | zero =>
    obtain rfl := List.length_eq_zero_iff.mp (Nat.le_zero.mp hfuel)
    exact hs.finished fun hfree => done imported s hfree
  | succ fuel ih =>
    cases pending with
    | nil => exact hs.finished fun hfree => done imported s hfree
    | cons r pending =>
      rw [importPending, bind_eq, Alone, ensures_bind]
      apply importPass_alone hv hn hs (List.Subset.refl _)
        ((hs.sublist.map _).nodup hn)
      intro rest n t hs' hsub hall
      rw [thenOk_ok]
      dsimp only
      split_ifs with hlen
      · obtain rfl := hsub.eq_of_length hlen
        have hst : ∀ x ∈ r :: pending, Stuck s₀.Has rs x := fun x hx => hs.stuck_of_waits (hall rfl) hx
        exact stuck t ⟨r, hst r List.mem_cons_self⟩ hs'.adds fun x hx =>
          (hs'.stored x hx).imp (hst x) id
      · have hle := hsub.length_le
        rw [List.length_cons] at hfuel hle hlen
        exact ih hs' (by omega)

theorem importBatch_alone {batch : Json} {Q : Py Status → Store → Prop}
    (done : ∀ (hv : Batches.validateBatch batch = .ok ())
      (h : ∀ r ∈ (Batch.mk batch hv).recordIds, s.Has r),
      ∀ status, (status = .accepted ↔ ∀ b ∈ s.batches, b.batchId ≠ batch.text "batch_id") →
        Q (.ok status) (s.insertBatch ⟨batch, hv⟩ h))
    (failed : (∀ hv : Batches.validateBatch batch = .ok (),
      ¬ ∀ r ∈ (Batch.mk batch hv).recordIds, s.Has r) →
        ∀ e : Exc, e.type.isServiceError = true →
          (Batches.validateBatch batch = .ok () → e.type = .missingDependencyError) →
            Q (.error e) s) :
    (importBatch batch).Alone (environment rpcAnswers) (fun _ => True) Q s := by
  unfold importBatch
  split
  · rename_i e he
    have hinvalid : Batches.validateBatch batch ≠ .ok () := by
      rw [he]
      rintro ⟨⟩
    exact failed (fun hv => absurd hv hinvalid) _ rfl fun hv => absurd hv hinvalid
  · rename_i hv
    simp only [bind_eq, Alone, ensures_bind]
    have hcount : ∀ (ids : List PyStr) (n : ℕ) {Q : Py ℕ → Store → Prop},
        Q (.ok (n + (ids.filter fun i => (s.records.find? i).isNone).length)) s →
        (ids.foldlM (fun (n : ℕ) recordId => do
          let r ← storage (.record recordId)
          return if r.isNone then n + 1 else n) n).Ensures (environment rpcAnswers) Eq
            (fun _ _ => True) Q s := by
      intro ids
      induction ids with
      | nil => exact fun n Q h => h
      | cons i ids ih =>
        intro n Q h
        simp only [List.foldlM_cons, bind_eq, pure_eq, ensures_bind, storage_ensures, forall_eq',
          Store.run, thenOk_ok, ensures_ret, true_and]
        apply ih
        by_cases hi : (s.records.find? i).isNone
        · rw [List.filter_cons, if_pos hi, List.length_cons] at h
          rw [if_pos hi, Nat.add_right_comm, Nat.add_assoc]
          exact h
        · rw [List.filter_cons, if_neg hi] at h
          rw [if_neg hi]
          exact h
    apply hcount
    have hzero : 0 + ((Batch.mk batch hv).recordIds.filter fun i =>
        (s.records.find? i).isNone).length = 0 ↔ ∀ r ∈ (Batch.mk batch hv).recordIds, s.Has r := by
      rw [Nat.zero_add, List.length_eq_zero_iff, List.filter_eq_nil_iff]
      simp only [← Store.find?_isSome_iff_has, Bool.not_eq_true, Option.isNone_eq_false_iff]
    simp only [thenOk_ok, ensures_bind, ensures_ofExcept, require]
    by_cases hall : ∀ r ∈ (Batch.mk batch hv).recordIds, s.Has r
    · have hadd : s.addBatch ⟨batch, hv⟩ = (.ok (s.batches.find? (batch.text "batch_id")).isNone,
          s.insertBatch ⟨batch, hv⟩ hall) := dif_pos hall
      rw [if_pos (hzero.mpr hall)]
      simp only [thenOk_ok, ensures_bind, storage_ensures, forall_eq', Store.run, hadd, true_and]
      apply done hv hall
      have hnone : (s.batches.find? (batch.text "batch_id")).isNone = true ↔
          ∀ b ∈ s.batches, b.batchId ≠ batch.text "batch_id" := by
        rw [Option.isNone_iff_eq_none, Table.find?_eq_none]
      rw [← hnone]
      split_ifs with h
      · exact iff_of_true rfl h
      · refine iff_of_false ?_ h
        rintro ⟨⟩
    · rw [if_neg (mt hzero.mp hall)]
      exact failed (fun _ => hall) _ rfl fun _ => rfl

/-- A valid package is imported exactly if its records do not wait for each other. -/
theorem importPackage_alone {package b : Json} {rs : List Json} {id : PyStr}
    {Q : Py (ℕ × Status) → Store → Prop} (hv : Packages.validatePackage package = .ok ())
    (hfacts : Packages.Facts package b rs id)
    (done : (∀ r, ¬ Stuck s.Has rs r) → ∀ x t, s.Adds t {r | r ∈ rs} →
      (∀ r ∈ rs, t.Has (r.text "record_id")) →
      ∀ h, Q (.ok x) (t.insertBatch ⟨b, hfacts.validBatch⟩ h))
    (failed : (∃ r, Stuck s.Has rs r) → ∀ e t, Q (.error e) t) :
    (importPackage package).Alone (environment rpcAnswers) (fun _ => True) Q s := by
  have hrecords : package.items "records" = rs := hfacts.items_records
  have hbatch : package.getD "batch" .null = b := hfacts.getD_batch
  have hn : (rs.map (Json.text · "record_id")).Nodup := by
    rw [hfacts.ids]
    exact Batches.nodup_strValue_recordIds hfacts.validBatch
  simp only [importPackage, wrapped, hv, rethrow, hrecords, hbatch, bind_eq, Alone, ensures_bind,
    ensures_ofExcept, thenOk_ok]
  apply importPending_alone hfacts.validRecords hn (s.importing_start rs) le_rfl
  · intro n t hfree hadds hall
    simp only [thenOk_ok, ensures_bind]
    have hhas : ∀ r ∈ (Batch.mk b hfacts.validBatch).recordIds, t.Has r := by
      intro r hr
      rw [Batch.recordIds, ← hfacts.ids] at hr
      obtain ⟨record, hrecord, rfl⟩ := List.mem_map.mp hr
      exact hall record hrecord
    apply importBatch_alone
    · exact fun _ h _ _ => done hfree _ t hadds hall h
    · exact fun hnone => absurd hhas (hnone hfacts.validBatch)
  · exact fun t hstuck _ _ => failed hstuck _ t

end Service

end HistoryAnchor

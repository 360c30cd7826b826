import HistoryAnchor.Exchange.Serving
import HistoryAnchor.Publication.Manifests
import HistoryAnchor.Queues.Greedy

/-! # The queue of unbatched records

`create_batch` takes records from the front of a queue: those in no batch, in the
order in which they came. Its estimate of a package is generous enough that what it
selects always fits, so it takes exactly the longest prefix that the estimate admits.
-/

namespace HistoryAnchor

open Python Effects Prog Tables Queues

section Queue

variable [Ed25519] {rpcAnswers : Answers} {s s' : Store} {B : Set Batch} {network : PyStr}
  {limit maxPackageBytes : ℤ}

namespace Store

def queue (s : Store) : List Record :=
  s.records.rows.filter fun r => s.recordBatches.rows.all (·.recordId ≠ r.recordId)

def Batched (s : Store) (recordId : PyStr) : Prop := ∃ l ∈ s.recordBatches, l.recordId = recordId

theorem mem_queue {r : Record} : r ∈ s.queue ↔ r ∈ s.records ∧ ¬ s.Batched r.recordId := by
  simp only [queue, Batched, List.mem_filter, List.all_eq_true, decide_eq_true_eq, not_exists,
    not_and]
  rfl

theorem queue_sublist : s.queue.Sublist s.records.rows := List.filter_sublist

theorem nodup_recordId_queue : (s.queue.map Record.recordId).Nodup :=
  s.records.nodup.sublist (queue_sublist.map _)

theorem nodup_queue : s.queue.Nodup := nodup_recordId_queue.of_map _

theorem batched_insertBatch {b : Batch} {h : ∀ r ∈ b.recordIds, ∃ row ∈ s.records, row.recordId = r}
    {recordId : PyStr} :
    (s.insertBatch b h).Batched recordId ↔ s.Batched recordId ∨ recordId ∈ b.recordIds := by
  constructor
  · rintro ⟨l, hl, rfl⟩
    rcases Table.mem_or_mem_of_mem_insertAll hl with hl | hl
    · exact Or.inl ⟨l, hl, rfl⟩
    · exact Or.inr (mem_linksOf hl).1
  · rintro (⟨l, hl, rfl⟩ | hr)
    · exact ⟨l, Table.mem_insertAll_of_mem hl, rfl⟩
    · obtain ⟨l, hl, hr', -⟩ := exists_mem_linksOf hr
      obtain ⟨l', hl', hk⟩ := Table.exists_mem_insertAll (t := s.recordBatches) hl
      exact ⟨l', hl', (Prod.mk.inj hk).1.trans hr'⟩

theorem queue_eq_filter {t : Store} {p : Record → Bool} (hrows : t.records = s.records)
    (h : ∀ r ∈ s.records, t.Batched r.recordId ↔ s.Batched r.recordId ∨ p r = false) :
    t.queue = s.queue.filter p := by
  rw [queue, queue, List.filter_filter, hrows]
  apply List.filter_congr
  intro r hr
  have hiff := h r hr
  rw [Bool.eq_iff_iff, Bool.and_eq_true, List.all_eq_true, List.all_eq_true]
  simp only [decide_eq_true_eq]
  have hnot : ∀ t : Store, (∀ l ∈ t.recordBatches.rows, l.recordId ≠ r.recordId) ↔
      ¬ t.Batched r.recordId := by
    intro t
    simp only [Batched, not_exists, not_and]
    rfl
  rw [hnot, hnot, hiff, not_or, Bool.not_eq_false, and_comm]

theorem queue_insertBatch {b : Batch}
    {h : ∀ r ∈ b.recordIds, ∃ row ∈ s.records, row.recordId = r} :
    (s.insertBatch b h).queue = s.queue.filter fun r => r.recordId ∉ b.recordIds :=
  queue_eq_filter rfl fun r _ => by
    rw [batched_insertBatch, decide_eq_false_iff_not, not_not]

theorem queue_addBatch (b : Batch) : ∃ kept, (s.addBatch b).2.queue = s.queue.filter kept := by
  unfold addBatch
  split_ifs with h
  · exact ⟨_, queue_insertBatch (h := h)⟩
  · exact ⟨fun _ => true, (List.filter_true _).symm⟩

end Store

def StorageCall.Quiet {β : Type} : StorageCall β → Prop
  | .addBatch _ => False
  | _ => True

namespace Store

theorem queue_run {β : Type} {c : StorageCall β} (hc : c.Quiet) : ∃ new,
    (s.run c).2.queue = s.queue ++ new ∧ ∀ r ∈ new, ¬ s.Has r.recordId := by
  have hsame : ∀ t : Store, t.records = s.records → t.recordBatches = s.recordBatches →
      ∃ new, t.queue = s.queue ++ new ∧ ∀ r ∈ new, ¬ s.Has r.recordId := by
    intro t hr hl
    refine ⟨[], ?_, fun _ h => absurd h List.not_mem_nil⟩
    rw [List.append_nil, queue, queue, hr, hl]
  cases c with
  | addRecord r =>
    by_cases hex : ∃ row ∈ s.records.rows, row.recordId = r.recordId
    · refine hsame (s.addRecord r) ?_ rfl
      show s.records.insertIgnore r = s.records
      rw [Table.insertIgnore, dif_pos hex]
    · refine ⟨[r], ?_, ?_⟩
      · have hrows : (s.addRecord r).records.rows = s.records.rows ++ [r] := by
          show (s.records.insertIgnore r).rows = _
          rw [Table.insertIgnore, dif_neg hex]
        have hfree : s.recordBatches.rows.all (·.recordId ≠ r.recordId) = true := by
          rw [List.all_eq_true]
          intro l hl
          apply decide_eq_true
          intro he
          obtain ⟨row, hrow, hid⟩ := s.record_fk l hl
          exact hex ⟨row, hrow, hid.trans he⟩
        have hone : [r].filter (fun r => s.recordBatches.rows.all (·.recordId ≠ r.recordId)) =
            [r] := by
          rw [List.filter_eq_self]
          intro r' hr'
          rw [List.mem_singleton.mp hr']
          exact hfree
        show (s.addRecord r).queue = _
        rw [queue, hrows, show (s.addRecord r).recordBatches = s.recordBatches from rfl,
          List.filter_append, hone]
        rfl
      · intro r' hr'
        rw [List.mem_singleton.mp hr']
        exact hex
  | addBatch b => exact hc.elim
  | addAnchor a =>
    rcases s.addAnchor_cases a with ⟨h, he⟩ | he
    · exact hsame _ (by simp only [run, he]; rfl) (by simp only [run, he]; rfl)
    · exact hsame _ (by simp only [run, he]) (by simp only [run, he])
  | addScannedBlock row =>
    simp only [run, addScannedBlock]
    split_ifs <;> exact hsame _ rfl rfl
  | addCommitment c =>
    simp only [run, addCommitment]
    split_ifs <;> exact hsame _ rfl rfl
  | _ => exact hsame _ rfl rfl

theorem queue_insertBatch_of_prefix {b : Batch} {records : List Record}
    {h : ∀ r ∈ b.recordIds, ∃ row ∈ s.records, row.recordId = r} (hfront : records <+: s.queue)
    (hids : ∀ i, i ∈ b.recordIds ↔ i ∈ records.map Record.recordId) :
    (s.insertBatch b h).queue = s.queue.drop records.length := by
  obtain ⟨rest, hrest⟩ := hfront
  have hn := s.nodup_recordId_queue
  rw [← hrest, List.map_append] at hn
  rw [queue_insertBatch, ← hrest, List.filter_append, List.drop_left]
  have htaken : records.filter (fun r => r.recordId ∉ b.recordIds) = [] := by
    rw [List.filter_eq_nil_iff]
    intro r hr
    rw [decide_eq_true_eq, not_not, hids]
    exact List.mem_map_of_mem hr
  have hleft : rest.filter (fun r => r.recordId ∉ b.recordIds) = rest := by
    rw [List.filter_eq_self]
    intro r hr
    apply decide_eq_true
    rw [hids]
    exact fun hm => (List.nodup_append.mp hn).2.2 _ hm _ (List.mem_map_of_mem hr) rfl
  rw [htaken, hleft, List.nil_append]

end Store

def Record.estimate (r : Record) : ℕ := r.body.width + 96

theorem Record.canonicalJsonBytes_ok (r : Record) (hw : r.body.WF) :
    ∃ bytes, Codec.canonicalJsonBytes r.body = .ok bytes ∧ bytes.length = r.body.width := by
  obtain ⟨bytes, hbytes⟩ := Codec.exists_canonicalJsonBytes_iff.mpr
    (Records.validateRecord_encodes r.valid hw (by decide))
  exact ⟨bytes, hbytes, Codec.length_canonicalJsonBytes hbytes⟩

namespace Service

variable {r : Record} {records chosen : List Record} {estimated : ℤ}

theorem selectRecords_cons (hw : r.body.WF) :
    selectRecords maxPackageBytes (r :: records) chosen estimated =
      if (r.estimate : ℤ) ≤ maxPackageBytes - estimated then
        selectRecords maxPackageBytes records (chosen ++ [r]) (estimated + r.estimate)
      else if chosen ≠ [] then .ok chosen
      else raise .serviceError "the next record cannot fit within the configured package limit" := by
  obtain ⟨bytes, hbytes, hlen⟩ := r.canonicalJsonBytes_ok hw
  have hsize : ((bytes.length : ℤ) + 96) = (r.estimate : ℤ) := by
    rw [hlen, Record.estimate]
    push_cast
    rfl
  have hstep : selectRecords maxPackageBytes (r :: records) chosen estimated =
      if maxPackageBytes < estimated + ((bytes.length : ℤ) + 96) then
        if chosen ≠ [] then .ok chosen
        else raise .serviceError "the next record cannot fit within the configured package limit"
      else selectRecords maxPackageBytes records (chosen ++ [r])
        (estimated + ((bytes.length : ℤ) + 96)) := by
    rw [selectRecords, hbytes]
    change ite _ _ _ = _
    by_cases hover : maxPackageBytes < estimated + ((bytes.length : ℤ) + 96)
    · rw [if_pos hover, if_pos hover]
      by_cases hchosen : chosen ≠ []
      · rw [if_pos hchosen, if_pos hchosen]
        rfl
      · rw [if_neg hchosen, if_neg hchosen]
        rfl
    · rw [if_neg hover, if_neg hover]
  rw [hstep, hsize]
  by_cases hfits : (r.estimate : ℤ) ≤ maxPackageBytes - estimated
  · rw [if_pos hfits, if_neg (by omega)]
  · rw [if_neg hfits, if_pos (by omega)]

theorem selectRecords_ok (hw : ∀ r ∈ records, r.body.WF)
    (hne : chosen ++ fitting Record.estimate (maxPackageBytes - estimated) records ≠ []) :
    selectRecords maxPackageBytes records chosen estimated =
      .ok (chosen ++ fitting Record.estimate (maxPackageBytes - estimated) records) := by
  induction records generalizing chosen estimated with
  | nil =>
    rw [fitting, List.append_nil]
    rfl
  | cons r records ih =>
    obtain ⟨hr, hrest⟩ := List.forall_mem_cons.mp hw
    rw [selectRecords_cons hr]
    rw [fitting] at hne ⊢
    by_cases hfits : (r.estimate : ℤ) ≤ maxPackageBytes - estimated
    · rw [if_pos hfits] at hne ⊢
      rw [if_pos hfits, ih hrest, ← sub_sub, List.append_assoc, List.singleton_append]
      exact List.append_ne_nil_of_left_ne_nil
        (List.append_ne_nil_of_right_ne_nil _ (List.cons_ne_nil _ _)) _
    · rw [if_neg hfits, List.append_nil] at hne
      rw [if_neg hfits, if_neg hfits, List.append_nil, if_pos hne]

def inOrder (records : List Record) : List Record :=
  records.insertionSort fun a b => a.recordId ≤ b.recordId

theorem inOrder_perm (records : List Record) : (inOrder records).Perm records :=
  List.perm_insertionSort _ _

theorem map_recordId_inOrder (records : List Record) :
    (inOrder records).map Record.recordId = Batches.sorted (records.map Record.recordId) :=
  List.map_insertionSort _ _ Record.recordId records fun _ _ _ _ => Iff.rfl

/-- `create_package` finds records by their identifiers, in whatever order they come. -/
theorem createPackage_perm {b : Json} {rs rs' : List Json} (hp : rs.Perm rs')
    (hn : (rs.map (Json.text · "record_id")).Nodup) :
    Packages.createPackage b rs = Packages.createPackage b rs' := by
  have hfind : ∀ k : PyStr, rs.reverse.find? (fun r => r.text "record_id" = k) =
      rs'.reverse.find? fun r => r.text "record_id" = k := by
    intro k
    by_cases hex : ∃ r ∈ rs, r.text "record_id" = k
    · obtain ⟨r, hr, rfl⟩ := hex
      rw [Packages.find?_reverse_of_nodup hn hr,
        Packages.find?_reverse_of_nodup ((hp.map _).nodup_iff.mp hn) (hp.subset hr)]
    · push Not at hex
      have hnone : ∀ xs : List Json, (∀ r ∈ xs, r ∈ rs) →
          xs.reverse.find? (fun r => r.text "record_id" = k) = none := by
        intro xs hxs
        rw [List.find?_eq_none]
        intro r hr
        rw [decide_eq_true_eq]
        exact hex r (hxs r (List.mem_reverse.mp hr))
      rw [hnone rs fun _ h => h, hnone rs' fun _ h => hp.symm.subset h]
  simp only [Packages.createPackage, hfind]

/-- What `create_batch` makes of the records that it has selected. -/
structure Prepared (network : PyStr) (maxPackageBytes : ℤ) (records : List Record) (t : ℕ)
    (b : Batch) (package : Json) : Prop where
  built : buildBatch (records.map Record.recordId) network t = .ok b
  wf : b.body.WF
  network_eq : b.network = network
  recordIds : b.recordIds = Batches.sorted (records.map Record.recordId)
  created : Packages.createPackage b.body ((inOrder records).map Record.body) = .ok package
  fits : ∃ bytes, Codec.canonicalJsonBytes package = .ok bytes ∧
    (bytes.length : ℤ) ≤ maxPackageBytes

theorem exists_prepared {t : ℕ} (hne : records ≠ []) (hn : (records.map Record.recordId).Nodup)
    (hw : ∀ r ∈ records, r.body.WF) (hlen : records.length ≤ Batches.maxBatchRecords)
    (hnetwork : network ∈ Batches.allowedNetworks) (ht : (t : ℤ) ≤ Codec.maxSafeJsonInteger)
    (hsum : ((records.map Record.estimate).sum : ℤ) ≤ maxPackageBytes - 4096) :
    ∃ b package, Prepared network maxPackageBytes records t b package := by
  have hids : ∀ i ∈ records.map Record.recordId, IsHash i := by
    intro i hi
    obtain ⟨r, -, rfl⟩ := List.mem_map.mp hi
    exact Records.isHash_recordId r.valid
  have hne' : records.map Record.recordId ≠ [] := fun h => hne (List.map_eq_nil_iff.mp h)
  have hlen' : (records.map Record.recordId).length ≤ Batches.maxBatchRecords := by
    rwa [List.length_map]
  obtain ⟨body, hbody⟩ := Batches.createBatchManifest_ok hne' hn hids hnetwork ht hlen'
  have hbuilt : buildBatch (records.map Record.recordId) network t = .ok ⟨body, hbody.valid⟩ := by
    simp only [buildBatch, bind_ok]
    refine ⟨body, hbody.created, ?_⟩
    split
    · rfl
    · rename_i e he
      rw [hbody.valid] at he
      cases he
  set b : Batch := ⟨body, hbody.valid⟩ with hb
  have hrecordIds : b.recordIds = Batches.sorted (records.map Record.recordId) := by
    have hval : ∀ x, Json.strValue (.str x) = x := fun _ => rfl
    simp only [Batch.recordIds, hb, Json.items, hbody.recordIds, List.map_map, Function.comp_def,
      hval, List.map_id']
  have hperm := inOrder_perm records
  have hordered : ((inOrder records).map Record.body).map (Json.text · "record_id") =
      (b.body.items "record_ids").map Json.strValue := by
    rw [List.map_map]
    exact (map_recordId_inOrder records).trans hrecordIds.symm
  have hwf : ∀ v ∈ (inOrder records).map Record.body, v.WF :=
    List.forall_mem_map.mpr fun r hr => hw r (hperm.subset hr)
  have hvalid : ∀ v ∈ (inOrder records).map Record.body, Records.validateRecord v true = .ok () :=
    List.forall_mem_map.mpr fun r _ => r.valid
  obtain ⟨package, hcreate, -, -, hrecords⟩ :=
    Packages.createPackage_ok hbody.valid hbody.wf hvalid hwf hordered
  have hencodes : Encodes 0 package := by
    obtain ⟨ordered, id, hid, rfl⟩ := Packages.createPackage_eq hcreate
    obtain rfl : ordered = (inOrder records).map Record.body :=
      Json.arr.inj (Option.some.inj hrecords)
    obtain ⟨raw, hraw⟩ := hid.isDigest
    apply Encodes.obj (by decide)
    · simp only [List.forall_mem_cons]
      exact ⟨encodable_of_all (by decide), encodable_of_all (by decide),
        encodable_of_all (by decide), encodable_of_all (by decide), encodable_of_all (by decide),
        fun _ h => absurd h List.not_mem_nil⟩
    · simp only [List.forall_mem_cons]
      exact ⟨.str (by decide) (encodable_of_all (by decide)), .int (by decide) (by decide),
        Batches.validateBatch_encodes hbody.valid hbody.wf (by decide),
        .arr (by decide) fun v hv => Records.validateRecord_encodes (hvalid v hv) (hwf v hv)
          (by decide), .str (by decide) hraw.encodable, fun _ h => absurd h List.not_mem_nil⟩
  obtain ⟨bytes, hbytes⟩ := Codec.exists_canonicalJsonBytes_iff.mpr hencodes
  refine ⟨b, package, hbuilt, hbody.wf, hbody.network_eq, hrecordIds, hcreate, bytes, hbytes, ?_⟩
  have hpackage := Packages.width_le_of_createPackage hcreate hrecords
  have hbatch := hbody.width_le hids hne' hnetwork ht hlen'
  have hsame : (((inOrder records).map Record.body).map fun v => v.width + 1).sum =
      (records.map fun r => r.body.width + 1).sum := by
    rw [List.map_map]
    exact (hperm.map _).sum_eq
  have hestimate : (records.map Record.estimate).sum =
      (records.map fun r => r.body.width + 1).sum + 95 * records.length := by
    clear * -
    induction records with
    | nil => rfl
    | cons r records ih =>
      simp only [List.map_cons, List.sum_cons, List.length_cons, ih, Record.estimate]
      omega
  rw [Codec.length_canonicalJsonBytes hbytes]
  rw [hsame] at hpackage
  rw [List.length_map] at hbatch
  have hbody' : b.body.width = body.width := rfl
  omega

theorem fitPackage_ok {t : ℕ} {b : Batch} {package : Json} (hne : records ≠ [])
    (hn : (records.map Record.recordId).Nodup)
    (h : Prepared network maxPackageBytes records t b package) :
    fitPackage network t maxPackageBytes records.reverse = .ok b := by
  obtain ⟨bytes, hbytes, hle⟩ := h.fits
  have hperm : (records.map Record.body).Perm ((inOrder records).map Record.body) :=
    (inOrder_perm records).symm.map _
  have hcreate : Packages.createPackage b.body (records.map Record.body) = .ok package := by
    rw [createPackage_perm hperm (by rw [List.map_map]; exact hn), h.created]
  cases hrev : records.reverse with
  | nil => exact absurd (List.reverse_eq_nil_iff.mp hrev) hne
  | cons r rest =>
    have hback : (r :: rest).reverse = records := by rw [← hrev, List.reverse_reverse]
    simp only [fitPackage, hback, bind_ok]
    refine ⟨b, h.built, package, hcreate, bytes, hbytes, ?_⟩
    rw [if_pos hle]
    rfl

end Service

omit [Ed25519] in
def Dated {β : Type} : OutsideCall β → Py β → Prop
  | .time, x => ∃ t : ℕ, x = .ok (t : ℤ) ∧ (t : ℤ) ≤ Codec.maxSafeJsonInteger
  | _, _ => True

def clocked (rpcAnswers : Answers) : Handler NodeCall Exc Store := fun _ call s x s' =>
  environment rpcAnswers call s x s' ∧ ∀ c, call = .outside c → Dated c x

theorem clocked_storage_ensures {β : Type} {c : StorageCall β} {R G : Store → Store → Prop}
    {Q : Py β → Store → Prop} : (storage c).Ensures (clocked rpcAnswers) R G Q s ↔
      ∀ s₁, R s s₁ → G s₁ (s₁.run c).2 ∧ Q (s₁.run c).1 (s₁.run c).2 := by
  have hplain : (storage c).Ensures (environment rpcAnswers) R G Q s ↔
      ∀ s₁, R s s₁ → G s₁ (s₁.run c).2 ∧ Q (s₁.run c).1 (s₁.run c).2 := storage_ensures
  rw [← hplain, storage, ensures_perform, ensures_perform]
  refine forall₂_congr fun s₁ _ => forall₂_congr fun x s₂ => ?_
  exact ⟨fun h hx => h ⟨hx, fun c hc => by cases hc⟩, fun h hx => h hx.1⟩

theorem clocked_now_ensures {R G : Store → Store → Prop} {Q : Py ℤ → Store → Prop}
    (h : ∀ t : ℕ, (t : ℤ) ≤ Codec.maxSafeJsonInteger → ∀ s₁, R s s₁ → G s₁ s₁ ∧ Q (.ok t) s₁) :
    now.Ensures (clocked rpcAnswers) R G Q s := by
  rw [now, ensures_perform]
  rintro s₁ hr x s₂ ⟨⟨-, rfl⟩, hdated⟩
  obtain ⟨t, rfl, ht⟩ := hdated _ rfl
  exact h t ht s₂ hr

namespace Service

def taken (s : Store) (limit maxPackageBytes : ℤ) : List Record :=
  fitting Record.estimate (maxPackageBytes - 4096) (s.queue.take limit.toNat)

theorem taken_prefix : taken s limit maxPackageBytes <+: s.queue :=
  (prefix_fitting _ _ _).trans (List.take_prefix _ _)

theorem createBatch_alone {Q : Py Batch → Store → Prop} (hw : ∀ r ∈ s.queue, r.body.WF)
    (hnetwork : network ∈ Batches.allowedNetworks) (hlimit : 0 ≤ limit) (hlimit' : limit ≤ 50000)
    (done : ∀ t b package h, taken s limit maxPackageBytes ≠ [] →
      Prepared network maxPackageBytes (taken s limit maxPackageBytes) t b package →
        Q (.ok b) (s.insertBatch b h))
    (failed : taken s limit maxPackageBytes = [] → ∀ e, Q (.error e) s) :
    (createBatch network limit maxPackageBytes).Alone (clocked rpcAnswers) (fun _ => True) Q s := by
  have hcandidates : s.unbatchedRecords limit = s.queue.take limit.toNat := by
    rw [Store.unbatchedRecords, Store.limited, if_neg (by omega)]
    rfl
  have hquery : sqliteInt limit := ⟨by omega, by omega⟩
  set candidates := s.queue.take limit.toNat with hcand
  have hwc : ∀ r ∈ candidates, r.body.WF := fun r hr => hw r (List.mem_of_mem_take hr)
  simp only [createBatch, bind_eq, Alone, ensures_bind, clocked_storage_ensures, forall_eq',
    Store.run, hcandidates, Store.query_ok hquery, thenOk_ok, check, ensures_ofExcept, require,
    true_and]
  cases hfirst : candidates with
  | nil =>
    rw [if_neg (by simp)]
    apply failed
    rw [taken, ← hcand, hfirst]
    rfl
  | cons r rest =>
    rw [if_pos (by simp), ← hfirst, thenOk_ok, ensures_bind, ensures_ofExcept]
    by_cases hne : taken s limit maxPackageBytes = []
    · have hselect : selectRecords maxPackageBytes candidates [] 4096 =
          raise .serviceError "the next record cannot fit within the configured package limit" := by
        have hlt := hne
        rw [taken, ← hcand, hfirst, fitting_cons_eq_nil_iff] at hlt
        rw [hfirst, selectRecords_cons (hwc r (hfirst ▸ List.mem_cons_self)), if_neg (not_le.mpr hlt),
          if_neg (not_not_intro rfl)]
      rw [hselect]
      exact failed hne _
    · have hselect : selectRecords maxPackageBytes candidates [] 4096 =
          .ok (taken s limit maxPackageBytes) :=
        selectRecords_ok hwc hne
      set records := taken s limit maxPackageBytes with hrecords
      have hinit : records <+: s.queue := taken_prefix
      have hroom : 0 ≤ maxPackageBytes - 4096 := by
        by_contra hneg
        apply hne
        rw [hrecords, taken, ← hcand, hfirst, fitting_cons_eq_nil_iff]
        have hpos := Int.natCast_nonneg r.estimate
        omega
      have hlen : records.length ≤ Batches.maxBatchRecords := by
        have hle := (prefix_fitting Record.estimate (maxPackageBytes - 4096) candidates).length_le
        have hle' : candidates.length ≤ limit.toNat := List.length_take_le _ _
        have hmax : Batches.maxBatchRecords = 50000 := rfl
        show (fitting Record.estimate (maxPackageBytes - 4096) candidates).length ≤ _
        omega
      have hn : (records.map Record.recordId).Nodup :=
        Store.nodup_recordId_queue.sublist (hinit.sublist.map _)
      rw [hselect, thenOk_ok, ensures_bind]
      apply clocked_now_ensures
      rintro t ht _ rfl
      obtain ⟨b, package, hprepared⟩ := exists_prepared hne hn (fun r hr => hw r (hinit.subset hr))
        hlen hnetwork ht (sum_fitting_le hroom _)
      rw [thenOk_ok, ensures_bind, ensures_ofExcept, fitPackage_ok hne hn hprepared]
      have hstored : ∀ i ∈ b.recordIds, ∃ row ∈ s.records, row.recordId = i := by
        intro i hi
        rw [hprepared.recordIds] at hi
        obtain ⟨r, hr, rfl⟩ := List.mem_map.mp ((Batches.sorted_perm _).subset hi)
        exact ⟨r, (Store.mem_queue.mp (hinit.subset hr)).1, rfl⟩
      have hadd : s.addBatch b = (.ok (s.batches.find? b.batchId).isNone, s.insertBatch b hstored) :=
        dif_pos hstored
      refine ⟨trivial, ?_⟩
      simp only [thenOk_ok, ensures_bind, clocked_storage_ensures, forall_eq', Store.run, hadd,
        true_and]
      exact done t b package hstored hne hprepared

/-- A call either stores a batch of the records it takes, or there are none and it raises. -/
theorem createBatch_ran {r : Py Batch} (hw : ∀ r ∈ s.queue, r.body.WF)
    (hnetwork : network ∈ Batches.allowedNetworks) (hlimit : 0 ≤ limit) (hlimit' : limit ≤ 50000)
    (hx : (createBatch network limit maxPackageBytes).Exec (clocked rpcAnswers) s r s') :
    (∃ t b package h, r = .ok b ∧ s' = s.insertBatch b h ∧ taken s limit maxPackageBytes ≠ [] ∧
      Prepared network maxPackageBytes (taken s limit maxPackageBytes) t b package) ∨
      (∃ e, r = .error e) ∧ taken s limit maxPackageBytes = [] ∧ s' = s := by
  have halone : (createBatch network limit maxPackageBytes).Alone (clocked rpcAnswers)
      (fun _ => True) (fun r s' => (∃ t b package h, r = .ok b ∧ s' = s.insertBatch b h ∧
        taken s limit maxPackageBytes ≠ [] ∧
        Prepared network maxPackageBytes (taken s limit maxPackageBytes) t b package) ∨
        (∃ e, r = .error e) ∧ taken s limit maxPackageBytes = [] ∧ s' = s) s :=
    createBatch_alone hw hnetwork hlimit hlimit'
      (fun t b package h hne hp => Or.inl ⟨t, b, package, h, rfl, rfl, hne, hp⟩)
      fun hnil e => Or.inr ⟨⟨e, rfl⟩, hnil, rfl⟩
  exact halone.exec (fun _ => rfl) hx

/-- The records are those at the front of the queue that the estimate admits. -/
structure Admitted (s : Store) (limit maxPackageBytes : ℤ) (records : List Record) : Prop where
  front : records <+: s.queue
  length_le : (records.length : ℤ) ≤ limit
  sum_le : records ≠ [] → 4096 + ((records.map Record.estimate).sum : ℤ) ≤ maxPackageBytes
  longest : ∀ ys, ys <+: s.queue → (ys.length : ℤ) ≤ limit →
    4096 + ((ys.map Record.estimate).sum : ℤ) ≤ maxPackageBytes → ys.length ≤ records.length

theorem admitted_taken (hlimit : 0 ≤ limit) :
    Admitted s limit maxPackageBytes (taken s limit maxPackageBytes) where
  front := taken_prefix
  length_le := by
    have hle := (prefix_fitting Record.estimate (maxPackageBytes - 4096)
      (s.queue.take limit.toNat)).length_le
    have hle' := List.length_take_le limit.toNat s.queue
    rw [taken]
    omega
  sum_le hne := by
    have hroom : 0 ≤ maxPackageBytes - 4096 := by
      obtain ⟨x, hx⟩ := List.exists_mem_of_ne_nil _ hne
      exact (Int.natCast_nonneg x.estimate).trans (le_of_mem_fitting hx)
    have hsum := sum_fitting_le (w := Record.estimate) hroom (s.queue.take limit.toNat)
    rw [taken]
    omega
  longest ys hfront hlen hsum := by
    apply length_le_fitting
    · rw [List.prefix_take_iff]
      exact ⟨hfront, by omega⟩
    · omega

def Admits (maxPackageBytes : ℤ) (r : Record) : Prop := 4096 + (r.estimate : ℤ) ≤ maxPackageBytes

theorem taken_ne_nil_iff (hlimit : 1 ≤ limit) :
    taken s limit maxPackageBytes ≠ [] ↔ ∃ x ∈ s.queue.head?, Admits maxPackageBytes x := by
  obtain ⟨n, hn⟩ : ∃ n, limit.toNat = n + 1 := ⟨limit.toNat - 1, by omega⟩
  rw [taken, hn]
  cases s.queue with
  | nil => simp [fitting]
  | cons x xs =>
    rw [List.take_succ_cons, ne_eq, fitting_cons_eq_nil_iff, List.head?_cons]
    simp only [Option.mem_some_iff, exists_eq_left', Admits]
    omega

structure Creation (s s' : Store) (network : PyStr) (maxPackageBytes : ℤ) (records : List Record)
    (b : Batch) : Prop where
  recordIds : b.recordIds = Batches.sorted (records.map Record.recordId)
  network_eq : b.network = network
  batches : s'.batches.rows = s.batches.rows ++ [b]
  recordBatches : ∀ l, l ∈ s'.recordBatches ↔ l ∈ s.recordBatches ∨ l ∈ Store.linksOf b
  queue : s'.queue = s.queue.drop records.length
  records_eq : s'.records = s.records
  anchors : s'.anchors = s.anchors
  bitcoinBlocks : s'.bitcoinBlocks = s.bitcoinBlocks
  commitments : s'.commitments = s.commitments
  served : ∃ package bytes, (∀ rpcAnswers r t,
      (packageForBatch b.batchId).Exec (environment rpcAnswers) s' r t →
        r = .ok (some package) ∧ t = s') ∧
    Codec.canonicalJsonBytes package = .ok bytes ∧ (bytes.length : ℤ) ≤ maxPackageBytes

theorem packageForBatch_of_created {b : Batch} {package : Json} {rows : List Record}
    (hb : b ∈ s.batches) (hrows : ∀ row ∈ rows, row ∈ s.records)
    (hmap : rows.map Record.recordId = b.recordIds)
    (hcreate : Packages.createPackage b.body (rows.map Record.body) = .ok package) :
    (packageForBatch b.batchId).Alone (environment rpcAnswers) (fun _ => True)
      (fun r s' => r = .ok (some package) ∧ s' = s) s := by
  have hfind : s.batches.find? b.batchId = some b := Table.find?_eq_some.mpr ⟨hb, rfl⟩
  simp only [packageForBatch, bind_eq, Alone, ensures_bind, storage_ensures, forall_eq',
    Store.run, hfind, thenOk_ok, true_and]
  rw [← hmap]
  apply recordsByIds_alone hrows
  have hlen : rows.length = b.recordIds.length := by rw [← hmap, List.length_map]
  simp only [thenOk_ok, hlen, b.facts.count, if_true, hcreate, ensures_bind, ensures_ofExcept,
    pure_eq, ensures_ret, and_self]

theorem creation_of_prepared {t : ℕ} {b : Batch} {package : Json} {h} (hB : Sealed B)
    (hs : s.Reached B) (hb : b ∈ B) (hne : records ≠ []) (hfront : records <+: s.queue)
    (hprepared : Prepared network maxPackageBytes records t b package) :
    Creation s (s.insertBatch b h) network maxPackageBytes records b := by
  obtain ⟨hmem, hlinked⟩ := hs.linked hB
  have hids : ∀ i, i ∈ b.recordIds ↔ i ∈ records.map Record.recordId := fun i => by
    rw [hprepared.recordIds]
    exact (Batches.sorted_perm _).mem_iff
  -- A stored batch under the same identifier would list the same records.
  have hnew : ¬ ∃ b' ∈ s.batches.rows, b'.batchId = b.batchId := by
    rintro ⟨b', hb', hid⟩
    obtain ⟨r, hr⟩ := List.exists_mem_of_ne_nil _ hne
    have hlisted : r.recordId ∈ b'.recordIds := by
      rw [hB.recordIds_eq (hmem b' hb') hb hid, hids]
      exact List.mem_map_of_mem hr
    obtain ⟨l, hl, he, -⟩ := (hlinked r.recordId b'.batchId).mpr ⟨b', hb', rfl, hlisted⟩
    exact (Store.mem_queue.mp (hfront.subset hr)).2 ⟨l, hl, he⟩
  have hbatches : (s.insertBatch b h).batches.rows = s.batches.rows ++ [b] := by
    show (s.batches.insertIgnore b).rows = _
    rw [Table.insertIgnore, dif_neg hnew]
  have hlinks : ∀ l, l ∈ (s.insertBatch b h).recordBatches ↔
      l ∈ s.recordBatches ∨ l ∈ Store.linksOf b := by
    intro l
    have hnodup : ((Store.linksOf b).map fun l => (l.recordId, l.batchId)).Nodup := by
      apply List.Nodup.of_map Prod.fst
      rw [List.map_map]
      show ((Store.linksOf b).map RecordBatch.recordId).Nodup
      rw [Store.map_recordId_linksOf, hprepared.recordIds, (Batches.sorted_perm _).nodup_iff]
      exact Store.nodup_recordId_queue.sublist (hfront.sublist.map _)
    refine (Table.mem_insertAll_of_nodup hnodup).trans (or_congr_right (and_iff_left_of_imp ?_))
    intro hl c hc hkey
    obtain ⟨b', hb', hid, -⟩ := (hlinked c.recordId c.batchId).mp ⟨c, hc, rfl, rfl⟩
    exact hnew ⟨b', hb', hid.trans ((Prod.mk.inj hkey).2.trans (Store.mem_linksOf hl).2)⟩
  obtain ⟨bytes, hbytes, hle⟩ := hprepared.fits
  refine ⟨hprepared.recordIds, hprepared.network_eq, hbatches, hlinks,
    Store.queue_insertBatch_of_prefix hfront hids, rfl, rfl, rfl, rfl, package, bytes, ?_, hbytes, hle⟩
  intro rpcAnswers r t hx
  refine Ensures.exec (fun _ => rfl) (packageForBatch_of_created ?_ ?_ ?_ hprepared.created) hx
  · rw [Table.mem_def, hbatches]
    exact List.mem_append_right _ List.mem_cons_self
  · intro row hrow
    exact (Store.mem_queue.mp (hfront.subset ((inOrder_perm records).subset hrow))).1
  · rw [map_recordId_inOrder, hprepared.recordIds]

end Service

open Service in
/-- `create_batch` takes the longest prefix of the queue that its estimate admits: it stores one
batch of these records, whose package is within the limit, and changes nothing else. It returns
exactly if the first record in the queue fits alone, and otherwise changes nothing. -/
theorem createBatch_takes_admitted {r : Py Batch} (hB : Sealed B) (hs : s.Reached B)
    (hw : ∀ row ∈ s.records, row.body.WF) (hnetwork : network ∈ Batches.allowedNetworks)
    (hlimit : 1 ≤ limit) (hlimit' : limit ≤ 50000)
    (hx : (createBatch network limit maxPackageBytes).Exec (clocked rpcAnswers) s r s')
    (hr : ∀ b, r = .ok b → b ∈ B) :
    (∃ records, Admitted s limit maxPackageBytes records ∧
      ((∃ b, r = .ok b ∧ records ≠ [] ∧ Creation s s' network maxPackageBytes records b) ∨
        (∃ e, r = .error e) ∧ records = [] ∧ s' = s)) ∧
    ((∃ b, r = .ok b) ↔ ∃ x ∈ s.queue.head?, Admits maxPackageBytes x) := by
  have hrun := createBatch_ran (fun r hr => hw r (Store.mem_queue.mp hr).1) hnetwork (by omega)
    hlimit' hx
  rw [← taken_ne_nil_iff hlimit]
  rcases hrun with ⟨t, b, package, h, rfl, rfl, hne, hp⟩ | ⟨⟨e, rfl⟩, hnil, rfl⟩
  · exact ⟨⟨_, admitted_taken (by omega), Or.inl ⟨b, rfl, hne,
      creation_of_prepared hB hs (hr b rfl) hne taken_prefix hp⟩⟩, iff_of_true ⟨b, rfl⟩ hne⟩
  · refine ⟨⟨_, admitted_taken (by omega), Or.inr ⟨⟨e, rfl⟩, hnil, rfl⟩⟩, iff_of_false ?_ ?_⟩
    · rintro ⟨b, hb⟩
      cases hb
    · exact not_not_intro hnil

/-- Calls of `create_batch` under one limit for packages, and other calls between them: the numbers
count the former and the batches that others store. -/
inductive Batching (maxPackageBytes : ℤ) (s : Store) : ℕ → ℕ → Store → Prop
  | start : Batching maxPackageBytes s 0 0 s
  | create {n m : ℕ} {t u : Store} {r : Py Batch} {network : PyStr} {limit : ℤ}
      (rpcAnswers : Answers) : Batching maxPackageBytes s n m t →
        network ∈ Batches.allowedNetworks → 1 ≤ limit → limit ≤ 50000 →
        (Service.createBatch network limit maxPackageBytes).Exec (clocked rpcAnswers) t r u →
        Batching maxPackageBytes s (n + 1) m u
  | other {n m : ℕ} {t : Store} {β : Type} {c : StorageCall β} :
      Batching maxPackageBytes s n m t → c.Quiet → Batching maxPackageBytes s n m (t.run c).2
  | foreign {n m : ℕ} {t : Store} (b : Batch) :
      Batching maxPackageBytes s n m t → Batching maxPackageBytes s n (m + 1) (t.addBatch b).2

namespace Batching

variable {n m : ℕ} {t u : Store} {r : Record} {i : ℕ}

theorem mem_records (h : Batching maxPackageBytes s n m t) (hr : r ∈ s.records) : r ∈ t.records := by
  induction h with
  | start => exact hr
  | create rpcAnswers _ _ _ _ hx ih =>
    have hkeep : ∀ (s : Store) (b : Batch), r ∈ s.records → r ∈ (s.addBatch b).2.records :=
      fun s b h => by rwa [Store.records_addBatch]
    exact (Service.createBatch_preserves hkeep _ _ _).exec ih (hx.mono fun _ _ _ _ _ h => h.1)
  | other _ _ ih => exact Store.mem_records_run _ ih
  | foreign b _ ih => rwa [Store.records_addBatch]

open Service in
theorem services (h : Batching maxPackageBytes s n m t) (hw : ∀ row ∈ t.records, row.body.WF) :
    Services (Admits maxPackageBytes) (fun kept => m = 0 → ∀ a, kept a = true) s.queue n t.queue := by
  induction h with
  | start => exact .start s.nodup_queue
  | @create n m t u r network limit rpcAnswers h hnetwork hlimit hlimit' hx ih =>
    have hsub : ∀ row ∈ t.records, row ∈ u.records := fun row hrow =>
      (Batching.start.create rpcAnswers hnetwork hlimit hlimit' hx).mem_records hrow
    have hwt : ∀ row ∈ t.records, row.body.WF := fun row hrow => hw row (hsub row hrow)
    have hqueue : u.queue = t.queue.drop (taken t limit maxPackageBytes).length := by
      rcases createBatch_ran (fun r hr => hwt r (Store.mem_queue.mp hr).1) hnetwork (by omega)
        hlimit' hx with ⟨_, b, _, _, -, rfl, -, hp⟩ | ⟨-, hnil, rfl⟩
      · apply Store.queue_insertBatch_of_prefix taken_prefix
        intro i
        rw [hp.recordIds]
        exact (Batches.sorted_perm _).mem_iff
      · rw [hnil, List.length_nil, List.drop_zero]
    rw [hqueue]
    apply (ih hwt).serve
    · intro x hx hadmits
      exact List.length_pos_of_ne_nil ((taken_ne_nil_iff hlimit).mpr ⟨x, hx, hadmits⟩)
    · intro x hx
      rw [← List.prefix_iff_eq_take.mp taken_prefix] at hx
      have hle := le_of_mem_fitting hx
      rw [Admits]
      omega
  | @other n m t β c h hc ih =>
    have hwt : ∀ row ∈ t.records, row.body.WF := fun row hrow =>
      hw row (Store.mem_records_run c hrow)
    obtain ⟨new, hqueue, hnew⟩ := Store.queue_run (s := t) hc
    have hnodup := (t.run c).2.nodup_queue
    rw [hqueue, ← List.filter_true t.queue] at hnodup ⊢
    refine (ih hwt).move (fun _ _ => rfl) hnodup fun a ha hm => hnew a hm ?_
    exact ⟨a, h.mem_records (Store.mem_queue.mp ha).1, rfl⟩
  | @foreign n m t b h ih =>
    rw [Store.records_addBatch] at hw
    obtain ⟨kept, hqueue⟩ := Store.queue_addBatch (s := t) b
    have hnodup := (t.addBatch b).2.nodup_queue
    rw [hqueue, ← List.append_nil (t.queue.filter kept)] at hnodup ⊢
    have hmono : Services (Admits maxPackageBytes) (fun kept => m + 1 = 0 → ∀ a, kept a = true)
        s.queue n t.queue := (ih hw).mono fun _ _ h0 => absurd h0 (Nat.succ_ne_zero m)
    exact hmono.move (fun h0 => absurd h0 (Nat.succ_ne_zero m)) hnodup
      fun _ _ => List.not_mem_nil

end Batching

open Service in
/-- A record is batched within one call more than there are records before it in the queue, whatever
happens between the calls, if the estimate admits these records and it, each alone. While nobody
else stores a batch this is necessary: one record that is too large holds up all that came later. -/
theorem batched_within {n m i : ℕ} {t : Store} {r : Record}
    (h : Batching maxPackageBytes s n m t) (hw : ∀ row ∈ t.records, row.body.WF)
    (hi : s.queue[i]? = some r) (hn : i < n) :
    ((∀ x ∈ s.queue.take (i + 1), Admits maxPackageBytes x) → t.Batched r.recordId) ∧
      (m = 0 → (t.Batched r.recordId ↔ ∀ x ∈ s.queue.take (i + 1), Admits maxPackageBytes x)) := by
  classical
  have hservices := h.services hw
  have hmem : r ∈ s.queue := List.mem_of_getElem? hi
  have hbefore : before s.queue r = s.queue.take i := before_eq_take s.nodup_queue hi
  have htake : s.queue.take (i + 1) = before s.queue r ++ [r] := by
    rw [hbefore, List.take_add_one, hi]
    rfl
  have hlen : (before s.queue r).length < n := by
    rw [hbefore]
    exact (List.length_take_le _ _).trans_lt hn
  have hbatched : t.Batched r.recordId ↔ r ∉ t.queue := by
    rw [Store.mem_queue, not_and, not_not]
    exact ⟨fun hb _ => hb, fun hb => hb (h.mem_records (Store.mem_queue.mp hmem).1)⟩
  have hserved : (∀ x ∈ s.queue.take (i + 1), Admits maxPackageBytes x) → t.Batched r.recordId := by
    intro hall
    rw [htake, List.forall_mem_append, List.forall_mem_singleton] at hall
    exact hbatched.mpr (hservices.leaves hmem hall.2 hall.1 hlen)
  refine ⟨hserved, ?_⟩
  rintro rfl
  refine ⟨fun hb x hx => ?_, hserved⟩
  by_contra hnot
  have hquiet : Services (Admits maxPackageBytes) (fun kept => ∀ a, kept a = true) s.queue n
      t.queue := hservices.mono fun _ h => h rfl
  rw [htake, List.mem_append, List.mem_singleton] at hx
  exact hbatched.mp hb (hquiet.stays hmem hx.symm hnot).1

end Queue

section Witness

attribute [local instance] feedKeys

theorem obeys_clocked (c : Chain) : Obeys c.oracle (clocked c.truthful) := by
  intro β call s
  have henv : Obeys c.oracle (environment c.truthful) := c.obeys_oracle fun _ _ _ => rfl
  refine ⟨henv call s, ?_⟩
  rintro call rfl
  cases call with
  | time => exact ⟨0, rfl, by decide⟩
  | getPackage | broadcastOpReturn => exact trivial

theorem exists_createBatch (limit maxPackageBytes : ℤ) {s : Store}
    (hs : s.records = linkedStore.records) (hlimit : 0 ≤ limit) (hlimit' : limit ≤ 50000) :
    ∃ r s', (Service.createBatch "signet" limit maxPackageBytes).Exec (clocked sampleOld.truthful) s
      r s' ∧ s'.records = linkedStore.records ∧
      (Service.taken s limit maxPackageBytes ≠ [] → ∃ b, r = .ok b ∧ b.body.WF) := by
  have hx := exec_eval (obeys_clocked sampleOld)
    (Service.createBatch "signet" limit maxPackageBytes) s
  refine ⟨_, _, hx, ?_⟩
  have hw : ∀ r ∈ s.queue, r.body.WF := fun r hr =>
    linkedStore_wf (hs ▸ (Store.mem_queue.mp hr).1)
  rcases Service.createBatch_ran hw (by decide) hlimit hlimit' hx with
    ⟨_, b, _, _, hr, hs', -, hp⟩ | ⟨-, hnil, hs'⟩
  · rw [hr, hs']
    exact ⟨hs, fun _ => ⟨b, rfl, hp.wf⟩⟩
  · rw [hs']
    exact ⟨hs, fun hne => absurd hnil hne⟩

theorem linkedStore_queue :
    linkedStore.queue = [harmlessClaim, impactNotice, restrictionNotice] := rfl

theorem estimate_linked : harmlessClaim.estimate = 659 ∧ impactNotice.estimate = 738 ∧
    restrictionNotice.estimate = 710 := by decide +kernel

/-- The package has room for the first two of three records. -/
theorem createBatch_takes_admitted_sample : ∃ b s',
    (Service.createBatch "signet" 10 6000).Exec (clocked sampleOld.truthful) linkedStore (.ok b)
      s' ∧
    ∃ records, Service.Admitted linkedStore 10 6000 records ∧ records.length = 2 ∧
      Service.Creation linkedStore s' "signet" 6000 records b := by
  obtain ⟨hclaim, hnotice, hrestriction⟩ := estimate_linked
  have hadmits : ∃ x ∈ linkedStore.queue.head?, Service.Admits 6000 x := by
    refine ⟨harmlessClaim, rfl, ?_⟩
    rw [Service.Admits, hclaim]
    decide
  obtain ⟨r, s', hx, -, hok⟩ := exists_createBatch 10 6000 (s := linkedStore) rfl (by decide)
    (by decide)
  obtain ⟨b, rfl, hwf⟩ := hok ((Service.taken_ne_nil_iff (by decide)).mpr hadmits)
  obtain ⟨⟨records, hadmitted, hdone⟩, -⟩ := createBatch_takes_admitted (sealed_singleton hwf)
    linkedStore_reached (fun row => linkedStore_wf) (by decide) (by decide) (by decide) hx
    fun b' hb' => (Except.ok.inj hb').symm
  rcases hdone with ⟨b', hb', hne, hcreation⟩ | ⟨⟨e, he⟩, -⟩
  · obtain rfl := Except.ok.inj hb'
    refine ⟨b, s', hx, records, hadmitted, le_antisymm ?_ ?_, hcreation⟩
    · by_contra hthree
      have hall : records = linkedStore.queue :=
        hadmitted.front.eq_of_length_le (not_le.mp hthree)
      have hsum := hadmitted.sum_le hne
      rw [hall, linkedStore_queue] at hsum
      simp only [List.map_cons, List.map_nil, List.sum_cons, List.sum_nil, hclaim, hnotice,
        hrestriction] at hsum
      omega
    · refine hadmitted.longest [harmlessClaim, impactNotice] ⟨[restrictionNotice], rfl⟩
        (by decide) ?_
      simp only [List.map_cons, List.map_nil, List.sum_cons, List.sum_nil, hclaim, hnotice]
      decide
  · cases he

/-- Two calls that take one record each batch the second record. -/
theorem batched_within_sample : ∃ t, Batching 25000000 linkedStore 2 0 t ∧
    t.Batched impactNotice.recordId := by
  obtain ⟨_, u, hx, hu, -⟩ := exists_createBatch 1 25000000 (s := linkedStore) rfl (by decide)
    (by decide)
  obtain ⟨_, t, hx', ht, -⟩ := exists_createBatch 1 25000000 hu (by decide) (by decide)
  have hrun : Batching 25000000 linkedStore 2 0 t :=
    (Batching.start.create _ (by decide) (by decide) (by decide) hx).create _ (by decide)
      (by decide) (by decide) hx'
  refine ⟨t, hrun, (batched_within hrun (fun row hrow => linkedStore_wf (ht ▸ hrow))
    (i := 1) rfl (by decide)).1 ?_⟩
  obtain ⟨hclaim, hnotice, -⟩ := estimate_linked
  rw [linkedStore_queue]
  simp only [List.take_succ_cons, List.take_zero, List.forall_mem_cons, Service.Admits, hclaim,
    hnotice]
  exact ⟨by decide, by decide, fun _ h => absurd h List.not_mem_nil⟩

end Witness

end HistoryAnchor

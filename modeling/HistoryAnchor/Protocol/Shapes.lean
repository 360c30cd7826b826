import HistoryAnchor.Protocol.Archive
import HistoryAnchor.Protocol.Canonical
import HistoryAnchor.Protocol.Uniqueness

/-! # Shapes of valid records and batches

Validation bounds how deep a record or a batch is nested, and everything in them
can be encoded, the parts that no hash covers too. So they can be embedded in
packages and snapshots.
-/

namespace HistoryAnchor

open Python

variable {n d : ℕ} {v : Json} {kvs : List (PyStr × Json)}

theorem Shallow.of_scalar (h : Shallow 0 v) (n : ℕ) : Shallow n v := by
  cases n <;> cases v <;> first | exact trivial | exact h.elim

theorem shallow_obj {names : List PyStr} (hk : (kvs.map Prod.fst).Nodup)
    (hf : Json.hasFields kvs names = true)
    (h : ∀ k ∈ names, Shallow n ((Json.obj kvs).getD k .null)) : Shallow (n + 1) (.obj kvs) := by
  rintro ⟨k, x⟩ hx
  have hget : (Json.obj kvs).get k = some x := (Json.lookup_eq_some_iff hk).mpr hx
  have hn := h k (Json.mem_of_get_of_hasFields hf hget)
  rwa [Json.getD, hget, Option.getD_some] at hn

/-- An object can be encoded if it can without one of its members and this member can be. -/
theorem Encodes.of_erase {k : PyStr} (h : Encodes d ((Json.obj kvs).erase k)) (hk : Encodable k)
    (hx : ∀ x, (k, x) ∈ kvs → Encodes (d + 1) x) : Encodes d (.obj kvs) := by
  cases h with
  | obj hd hkeys hvals =>
    have hcase : ∀ kv ∈ kvs, kv.1 = k ∨ kv ∈ kvs.filter fun kv => kv.1 ≠ k := by
      intro kv hkv
      by_cases he : kv.1 = k
      · exact Or.inl he
      · exact Or.inr (List.mem_filter.mpr ⟨hkv, decide_eq_true he⟩)
    apply Encodes.obj hd
    · intro kv hkv
      rcases hcase kv hkv with he | hm
      · exact he ▸ hk
      · exact hkeys kv hm
    · rintro ⟨l, x⟩ hkv
      rcases hcase _ hkv with rfl | hm
      · exact hx x hkv
      · exact hvals _ hm

theorem IsDigest.encodable {s : PyStr} {raw : Bytes} (h : IsDigest s raw) : Encodable s :=
  encodable_of_fromHex h.2.1

section Scalars

theorem shallow_of_eqStr {s : PyStr} (h : v.eqStr s = true) : Shallow 0 v := by
  rw [Batches.eqStr_iff] at h
  rw [h]
  trivial

theorem shallow_of_eqInt {m : ℤ} (h : v.eqInt m = true) : Shallow 0 v := by
  cases v with
  | arr | obj => cases h
  | _ => trivial

theorem shallow_of_isNatural (h : v.isNatural = true) : Shallow 0 v := by
  cases v with
  | arr | obj => cases h
  | _ => trivial

theorem shallow_of_memberOf {names : List PyStr} {known : Bool} (h : memberOf v names = .ok known) :
    Shallow 0 v := by
  cases v with
  | arr | obj => exact (raise_ne_ok h).elim
  | _ => trivial

theorem shallow_of_requireDigest {type : ExcType} {field s : PyStr}
    (h : requireDigest type v field = .ok s) : Shallow 0 v := by
  rw [(requireDigest_ok.mp h).1]
  trivial

theorem shallow_of_shortOrNull (h : Records.shortOrNull v n = true) : Shallow 0 v := by
  cases v with
  | arr | obj => cases h
  | _ => trivial

theorem shallow_of_shortText (h : Records.shortText v n = true) : Shallow 0 v := by
  cases v with
  | arr | obj => cases h
  | _ => trivial

theorem shallow_of_requireText {field : PyStr} (h : Records.requireText v field = .ok ()) :
    Shallow 0 (v.getD field .null) := by
  unfold Records.requireText at h
  split at h
  · rename_i s hs
    rw [hs]
    trivial
  · exact (raise_ne_ok h).elim

end Scalars

namespace Records

theorem validateSource_shallow (h : validateSource v = .ok ()) (hw : v.WF) : Shallow 1 v := by
  cases v with
  | obj fields =>
    simp only [validateSource, bind_ok, require_ok, exists_unit] at h
    obtain ⟨hf, huri, -, hlabel⟩ := h
    apply shallow_obj hw.1 hf
    simp only [sourceFields, List.forall_mem_cons]
    refine ⟨?_, shallow_of_shortOrNull hlabel, fun _ h => absurd h List.not_mem_nil⟩
    unfold Json.text at huri
    unfold Json.getD
    split at huri
    · rename_i s hs
      rw [hs]
      trivial
    · exact absurd rfl huri
  | _ => exact (raise_ne_ok h).elim

theorem validateEvidence_shallow (h : validateEvidence v = .ok ()) (hw : v.WF) : Shallow 1 v := by
  cases v with
  | obj fields =>
    simp only [validateEvidence, bind_ok, require_ok, exists_unit] at h
    obtain ⟨hf, sha, hsha, hname, hsize, hmime, hcid⟩ := h
    apply shallow_obj hw.1 hf
    simp only [evidenceFields, List.forall_mem_cons]
    exact ⟨shallow_of_shortText hname, shallow_of_isNatural hsize, shallow_of_shortOrNull hmime,
      shallow_of_requireDigest hsha, shallow_of_shortOrNull hcid,
      fun _ h => absurd h List.not_mem_nil⟩
  | _ => exact (raise_ne_ok h).elim

theorem normalizeList_shallow {field : PyStr} {xs : List Json} (h : normalizeList v field = .ok xs)
    (hxs : ∀ x ∈ xs, Shallow n x) : Shallow (n + 1) v := by
  cases v with
  | null => trivial
  | arr ys =>
    obtain rfl := Except.ok.inj h
    exact hxs
  | _ => exact (raise_ne_ok h).elim

theorem normalizeList_wf {field : PyStr} {xs : List Json} (h : normalizeList v field = .ok xs)
    (hw : v.WF) : ∀ x ∈ xs, x.WF := by
  cases v with
  | null =>
    obtain rfl := Except.ok.inj h
    exact fun x hx => absurd hx List.not_mem_nil
  | arr ys =>
    obtain rfl := Except.ok.inj h
    exact Json.wfList_iff.mp hw
  | _ => exact (raise_ne_ok h).elim

variable [Ed25519]

theorem validateRecord_shallow {verifySignature : Bool}
    (h : validateRecord v verifySignature = .ok ()) (hw : v.WF) : Shallow 3 v := by
  simp only [validateRecord, bind_ok, exists_unit] at h
  obtain ⟨kind, hheader, htexts, htarget, hlists, hidentity⟩ := h
  obtain ⟨⟨fields, rfl, hf⟩, -⟩ := validateHeader_ok hheader
  have hwf : ∀ k, ((Json.obj fields).getD k .null).WF := by
    intro k
    cases hk : (Json.obj fields).get k with
    | none =>
      rw [Json.getD, hk]
      trivial
    | some x =>
      rw [Json.getD, hk]
      exact hw.get hk
  simp only [validateHeader, bind_ok, require_ok, exists_unit] at hheader
  obtain ⟨-, hschema, hversion, known, hknown, -, -⟩ := hheader
  simp only [validateTexts, bind_ok, require_ok, exists_unit, forM_ok, List.forall_mem_cons]
    at htexts
  obtain ⟨⟨hcreated, hauthor, hkey, htitle, hstatement, -⟩, -, -, hevent, -⟩ := htexts
  simp only [validateLists, bind_ok, require_ok, exists_unit, forM_ok] at hlists
  obtain ⟨sources, hsources, evidence, hevidence, tags, htags, -, -, ⟨-, hall⟩, hs, he⟩ := hlists
  simp only [validateIdentity, bind_ok] at hidentity
  obtain ⟨signature, hsignature, recordId, hrecordId, -⟩ := hidentity
  have htarget' : Shallow 0 ((Json.obj fields).getD "target_record_id" .null) := by
    unfold validateTarget at htarget
    split_ifs at htarget
    · simp only [bind_ok] at htarget
      obtain ⟨s, hs, -⟩ := htarget
      exact shallow_of_requireDigest hs
    · split at htarget
      · rename_i hnull
        rw [hnull]
        trivial
      · exact (raise_ne_ok htarget).elim
  have hsignature' : Shallow 0 ((Json.obj fields).getD "signature" .null) := by
    unfold requireSignature at hsignature
    split at hsignature
    · rename_i s hs
      rw [hs]
      trivial
    · exact (raise_ne_ok hsignature).elim
  have hsources' := normalizeList_shallow hsources fun x hx =>
    validateSource_shallow (hs x hx) (normalizeList_wf hsources (hwf _) x hx)
  have hevidence' := normalizeList_shallow hevidence fun x hx =>
    validateEvidence_shallow (he x hx) (normalizeList_wf hevidence (hwf _) x hx)
  have htags' := normalizeList_shallow htags fun x hx =>
    (shallow_of_shortText (List.all_eq_true.mp hall x hx)).of_scalar 1
  apply shallow_obj hw.1 hf
  simp only [recordFields, List.forall_mem_cons]
  exact ⟨(shallow_of_eqStr hschema).of_scalar 2, (shallow_of_eqInt hversion).of_scalar 2,
    (shallow_of_memberOf hknown).of_scalar 2, (shallow_of_requireText hcreated).of_scalar 2,
    (shallow_of_shortOrNull hevent).of_scalar 2, (shallow_of_requireText hauthor).of_scalar 2,
    (shallow_of_requireText hkey).of_scalar 2, (shallow_of_requireText htitle).of_scalar 2,
    (shallow_of_requireText hstatement).of_scalar 2, htarget'.of_scalar 2, hsources', hevidence',
    htags', hsignature'.of_scalar 2, (shallow_of_requireDigest hrecordId).of_scalar 2,
    fun _ h => absurd h List.not_mem_nil⟩

theorem validateRecord_encodes {verifySignature : Bool}
    (h : validateRecord v verifySignature = .ok ()) (hw : v.WF) (hd : d + 3 ≤ 32) :
    Encodes d v := by
  obtain ⟨fields, id, rfl, hf, hid, hc⟩ := validateRecord_ok h
  have hshallow := validateRecord_shallow h hw
  simp only [calculateRecordId, bind_ok] at hc
  obtain ⟨b, hb, -⟩ := hc
  have hdigest : Encodable id := by
    simp only [validateRecord, bind_ok, exists_unit] at h
    obtain ⟨-, -, -, -, -, h⟩ := h
    simp only [validateIdentity, bind_ok] at h
    obtain ⟨-, -, recordId, hrecordId, -⟩ := h
    obtain ⟨he, raw, hraw⟩ := requireDigest_ok.mp hrecordId
    rw [Json.getD, hid, Option.getD_some, Json.str.injEq] at he
    exact he ▸ hraw.encodable
  have hzero : Encodes 0 (.obj fields) := by
    apply Encodes.of_erase (Codec.exists_canonicalJsonBytes_iff.mp ⟨b, hb⟩)
      (encodable_of_all (by decide))
    intro x hx
    have hlook : fields.lookup (ascii "record_id") = some x :=
      (Json.lookup_eq_some_iff hw.1).mpr hx
    rw [Json.get_obj, hlook, Option.some.injEq] at hid
    rw [hid]
    exact .str (by omega) hdigest
  exact hzero.move hshallow hd

end Records

namespace Batches

theorem eqTexts_shallow {expected : List (PyStr × PyStr)} (h : v.eqTexts expected = true)
    (hw : v.WF) : Shallow 1 v := by
  cases v with
  | obj kvs =>
    simp only [Json.eqTexts, Bool.and_eq_true, List.all_eq_true] at h
    obtain ⟨hf, hall⟩ := h
    apply shallow_obj hw.1 hf
    intro k hk
    obtain ⟨⟨l, s⟩, hm, rfl⟩ := List.mem_map.mp hk
    obtain ⟨x, hx, he⟩ := (Option.any_eq_true _ _).mp (hall _ hm)
    rw [Json.getD, Json.get_obj, hx, Option.getD_some]
    exact shallow_of_eqStr he
  | _ => cases h

theorem nodup_recordIds {batch : Json} {ids : List PyStr} (h : validateBatch batch = .ok ())
    (hids : batch.get "record_ids" = some (.arr (ids.map .str))) : ids.Nodup := by
  simp only [validateBatch, bind_ok, exists_unit] at h
  obtain ⟨-, ids', hv, -⟩ := h
  rw [Json.getD, hids, Option.getD_some] at hv
  have he := (validateRecordIds_ok hv).1
  rw [Json.arr.injEq] at he
  obtain rfl : ids = ids' := List.map_injective_iff.mpr (fun _ _ h => Json.str.inj h) he
  cases ids with
  | nil => exact List.nodup_nil
  | cons x xs =>
    simp only [List.map_cons, validateRecordIds, bind_ok, require_ok, exists_unit] at hv
    obtain ⟨-, ids'', -, -, hn, hids'⟩ := hv
    exact Except.ok.inj hids' ▸ hn

theorem nodup_strValue_recordIds {batch : Json} (h : validateBatch batch = .ok ()) :
    ((batch.items "record_ids").map Json.strValue).Nodup := by
  obtain ⟨ids, id, payload, hfacts⟩ := validateBatch_ok h
  have hval : ∀ i : PyStr, (Json.str i).strValue = i := fun _ => rfl
  simp only [Json.items, hfacts.recordIds, List.map_map, Function.comp_def, hval, List.map_id']
  exact nodup_recordIds h hfacts.recordIds

theorem validateBatch_shallow (h : validateBatch v = .ok ()) (hw : v.WF) : Shallow 2 v := by
  obtain ⟨ids, id, payload, hfacts⟩ := validateBatch_ok h
  obtain ⟨fields, rfl, hf⟩ := hfacts.fields
  simp only [validateBatch, bind_ok, require_ok, exists_unit] at h
  obtain ⟨hheader, ids', -, hcount, root, -, hroot, halgorithms, -⟩ := h
  simp only [validateHeader, bind_ok, require_ok, exists_unit] at hheader
  obtain ⟨-, ⟨hschema, hversion⟩, hordering, known, hnetwork, -, hcreated⟩ := hheader
  have hids : Shallow 1 ((Json.obj fields).getD "record_ids" .null) := by
    rw [Json.getD, hfacts.recordIds, Option.getD_some]
    intro x hx
    obtain ⟨s, -, rfl⟩ := List.mem_map.mp hx
    trivial
  have halgorithms' : Shallow 1 ((Json.obj fields).getD "algorithms" .null) := by
    apply eqTexts_shallow halgorithms
    obtain ⟨x, hx⟩ := Json.get_of_hasFields hf (k := "algorithms") (by decide)
    rw [Json.getD, hx, Option.getD_some]
    exact hw.get hx
  have hid : Shallow 0 ((Json.obj fields).getD "batch_id" .null) := by
    rw [Json.getD, hfacts.batchId]
    trivial
  have hpayload : Shallow 0 ((Json.obj fields).getD "payload_hex" .null) := by
    rw [Json.getD, hfacts.payloadHex]
    trivial
  apply shallow_obj hw.1 hf
  simp only [batchFields, List.forall_mem_cons]
  exact ⟨(shallow_of_eqStr hschema).of_scalar 1, (shallow_of_eqInt hversion).of_scalar 1,
    (shallow_of_isNatural hcreated).of_scalar 1, (shallow_of_memberOf hnetwork).of_scalar 1,
    (shallow_of_eqInt hcount).of_scalar 1, (shallow_of_eqStr hordering).of_scalar 1, hids,
    (shallow_of_eqStr hroot).of_scalar 1, halgorithms', hid.of_scalar 1, hpayload.of_scalar 1,
    fun _ h => absurd h List.not_mem_nil⟩

theorem validateBatch_encodes (h : validateBatch v = .ok ()) (hw : v.WF) (hd : d + 2 ≤ 32) :
    Encodes d v := by
  have hshallow := validateBatch_shallow h hw
  obtain ⟨ids, id, payload, hfacts⟩ := validateBatch_ok h
  obtain ⟨fields, rfl, hf⟩ := hfacts.fields
  obtain ⟨b, hb, -⟩ := calculateBatchId_ok hfacts.calculated
  have hmember : ∀ {k s : PyStr}, (Json.obj fields).get k = some (.str s) → Encodable s →
      ∀ x, (k, x) ∈ fields → Encodes 1 x := by
    intro k s hk hs x hx
    rw [Json.get_obj, (Json.lookup_eq_some_iff hw.1).mpr hx, Option.some.injEq] at hk
    rw [hk]
    exact .str (by omega) hs
  have hid : Encodable id := by
    simp only [validateBatch, bind_ok, exists_unit] at h
    obtain ⟨-, ids', -, -, root, -, -, -, h⟩ := h
    simp only [validateIdentity, bind_ok] at h
    obtain ⟨batchId, hbatchId, -⟩ := h
    obtain ⟨he, raw, hraw⟩ := requireDigest_ok.mp hbatchId
    rw [Json.getD, hfacts.batchId, Option.getD_some, Json.str.injEq] at he
    exact he ▸ hraw.encodable
  have hpayload : Encodable payload := by
    obtain ⟨p, hp, -⟩ := hfacts.commits
    obtain ⟨bytes, hbytes, -⟩ := Bitcoin.decodeAnchorPayload_ok.mp hp
    exact encodable_of_fromHex hbytes
  have hmanifest : Encodes 0 (manifestBody (.obj fields)) :=
    Codec.exists_canonicalJsonBytes_iff.mp ⟨b, hb⟩
  have hwithout : Encodes 0 ((Json.obj fields).erase "batch_id") :=
    hmanifest.of_erase (encodable_of_all (by decide)) fun x hx =>
      hmember hfacts.payloadHex hpayload x (List.mem_filter.mp hx).1
  have hzero : Encodes 0 (.obj fields) :=
    hwithout.of_erase (encodable_of_all (by decide)) (hmember hfacts.batchId hid)
  exact hzero.move hshallow hd

end Batches

namespace Packages

theorem find?_reverse_of_nodup {rs : List Json} (hn : (rs.map (Json.text · "record_id")).Nodup)
    {r : Json} (hr : r ∈ rs) :
    rs.reverse.find? (fun x => x.text "record_id" = r.text "record_id") = some r := by
  have hsome : (rs.reverse.find? fun x => x.text "record_id" = r.text "record_id").isSome := by
    simpa using ⟨r, hr, rfl⟩
  obtain ⟨x, hx⟩ := Option.isSome_iff_exists.mp hsome
  have hid : x.text "record_id" = r.text "record_id" := by simpa using List.find?_some hx
  have hmem : x ∈ rs := List.mem_reverse.mp (List.mem_of_find?_eq_some hx)
  rw [hx, List.inj_on_of_nodup_map hn hmem hr hid]

theorem mapM_ok {α β : Type} {f : α → Py β} {g : α → β} {xs : List α}
    (h : ∀ x ∈ xs, f x = .ok (g x)) : xs.mapM f = .ok (xs.map g) := by
  induction xs with
  | nil => rfl
  | cons x xs ih =>
    rw [List.mapM_cons, h x List.mem_cons_self, ih fun y hy => h y (List.mem_cons_of_mem x hy)]
    rfl

variable [Ed25519]

/-- A batch and its records in the committed order make a package that is accepted. -/
theorem createPackage_ok {b : Json} {rs : List Json} (hb : Batches.validateBatch b = .ok ())
    (hwb : b.WF) (hrs : ∀ r ∈ rs, Records.validateRecord r true = .ok ()) (hwr : ∀ r ∈ rs, r.WF)
    (hids : rs.map (Json.text · "record_id") = (b.items "record_ids").map Json.strValue) :
    ∃ p, createPackage b rs = .ok p ∧ validatePackage p = .ok () ∧ p.get "batch" = some b ∧
      p.get "records" = some (.arr rs) := by
  obtain ⟨ids, batchId, payload, hfacts⟩ := Batches.validateBatch_ok hb
  obtain ⟨bfields, hobj, -⟩ := hfacts.fields
  have hval : ∀ x, Json.strValue (.str x) = x := fun _ => rfl
  have hlisted : (b.items "record_ids").map Json.strValue = ids := by
    simp only [Json.items, hfacts.recordIds, List.map_map, Function.comp_def, hval, List.map_id']
  rw [hlisted] at hids
  have hn : (rs.map (Json.text · "record_id")).Nodup :=
    hids ▸ Batches.nodup_recordIds hb hfacts.recordIds
  have hitems : b.items "record_ids" = rs.map fun r => .str (r.text "record_id") := by
    rw [Json.items, hfacts.recordIds, ← hids, List.map_map]
    rfl
  -- The body can be encoded, so it has a hash.
  set body : List (PyStr × Json) :=
    [("schema", .str packageSchema), ("version", .int packageVersion), ("batch", b),
     ("records", .arr rs)] with hbody
  have hencodes : Encodes 0 (.obj body) := by
    apply Encodes.obj (by omega)
    · simp only [hbody, List.forall_mem_cons]
      exact ⟨encodable_of_all (by decide), encodable_of_all (by decide),
        encodable_of_all (by decide), encodable_of_all (by decide),
        fun _ h => absurd h List.not_mem_nil⟩
    · simp only [hbody, List.forall_mem_cons]
      refine ⟨.str (by omega) (encodable_of_all (by decide)), .int (by omega) (by decide),
        Batches.validateBatch_encodes hb hwb (by omega), .arr (by omega) fun r hr => ?_,
        fun _ h => absurd h List.not_mem_nil⟩
      exact Records.validateRecord_encodes (hrs r hr) (hwr r hr) (by omega)
  obtain ⟨bytes, hbytes⟩ := Codec.exists_canonicalJsonBytes_iff.mpr hencodes
  have hpackageId : calculatePackageId (.obj body) = .ok (Codec.sha256Hex bytes) := by
    rw [calculatePackageId, show packageBody (.obj body) = .obj body from rfl, hbytes]
    rfl
  set identity : List (PyStr × Json) := [("package_id", .str (Codec.sha256Hex bytes))]
    with hidentity
  have hvalid : validatePackage (.obj (body ++ identity)) = .ok () := by
    apply validatePackage_iff.mpr
    refine ⟨b, rs, ids, Codec.sha256Hex bytes, rfl, Batches.eqStr_iff.mpr rfl, rfl, rfl, ?_, hb,
      rfl, ?_, ?_, ?_, hlisted.symm, ?_, ?_⟩
    · rw [hobj]
    · rintro rfl
      exact hfacts.nonempty (by rw [← hids]; rfl)
    · have hlen : rs.length = ids.length := by rw [← hids, List.length_map]
      rw [hlen]
      exact hfacts.count
    · rw [← hids]
      exact validateRecords_iff.mpr ⟨hrs, hn, rfl⟩
    · exact hpackageId
    · exact Batches.eqStr_iff.mpr rfl
  refine ⟨.obj (body ++ identity), ?_, hvalid, rfl, rfl⟩
  simp only [createPackage, bind_ok]
  refine ⟨rs, ?_, _, hpackageId, (), hvalid, rfl⟩
  rw [hitems, List.mapM_map]
  refine (mapM_ok (g := id) fun r hr => ?_).trans (by rw [List.map_id])
  simp only [Function.comp_apply, hval, find?_reverse_of_nodup hn hr, id]

end Packages

end HistoryAnchor

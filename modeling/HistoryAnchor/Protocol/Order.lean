import HistoryAnchor.Protocol.Faithful
import HistoryAnchor.Protocol.Snapshots

/-! # Validation and the order of members

A value that was encoded and read back has its members in the order of their keys.
It is accepted by every validator that accepted it before.
-/

namespace Python.Json

variable {v : Json} {kvs : List (PyStr × Json)} {s : PyStr}

theorem get_sortKeys (h : v.WF) (k : PyStr) : v.sortKeys.get k = (v.get k).map sortKeys := by
  cases v with
  | obj kvs =>
    have hkeys : ((sortKeysMembers kvs).map Prod.fst).Nodup := by
      rw [keys_sortKeysMembers]
      exact h.1
    have hsorted : ((sortMembers (sortKeysMembers kvs)).map Prod.fst).Nodup :=
      (((List.perm_insertionSort _ _).map Prod.fst).nodup_iff).mpr hkeys
    have hlookup : (sortMembers (sortKeysMembers kvs)).lookup k = (sortKeysMembers kvs).lookup k := by
      ext x
      rw [lookup_eq_some_iff hsorted, lookup_eq_some_iff hkeys, mem_sortMembers]
    rw [sortKeys, get_obj, get_obj, hlookup, sortKeysMembers_eq, lookup_map]
  | _ => rfl

theorem getD_sortKeys (h : v.WF) (k : PyStr) {d : Json} (hd : d.sortKeys = d) :
    v.sortKeys.getD k d = (v.getD k d).sortKeys := by
  rw [getD, getD, get_sortKeys h]
  cases v.get k with
  | none => exact hd.symm
  | some x => rfl

theorem getD_null_sortKeys (h : v.WF) (k : PyStr) :
    v.sortKeys.getD k .null = (v.getD k .null).sortKeys := getD_sortKeys h k rfl

theorem text_sortKeys (h : v.WF) (k : PyStr) : v.sortKeys.text k = v.text k := by
  rw [text, text, get_sortKeys h]
  rcases v.get k with - | (_ | _ | _ | _ | _ | _ | _) <;> rfl

theorem nat_sortKeys (h : v.WF) (k : PyStr) : v.sortKeys.nat k = v.nat k := by
  rw [nat, nat, get_sortKeys h]
  rcases v.get k with - | (_ | _ | _ | _ | _ | _ | _) <;> rfl

theorem items_sortKeys (h : v.WF) (k : PyStr) :
    v.sortKeys.items k = (v.items k).map sortKeys := by
  rw [items, items, get_sortKeys h]
  rcases v.get k with - | (_ | _ | _ | _ | _ | _ | _)
  case some.arr xs => exact sortKeysList_eq xs
  all_goals rfl

@[simp] theorem eqStr_sortKeys : v.sortKeys.eqStr s = v.eqStr s := by cases v <;> rfl

@[simp] theorem eqInt_sortKeys {n : ℤ} : v.sortKeys.eqInt n = v.eqInt n := by cases v <;> rfl

@[simp] theorem isNatural_sortKeys : v.sortKeys.isNatural = v.isNatural := by cases v <;> rfl

@[simp] theorem strValue_sortKeys : v.sortKeys.strValue = v.strValue := by cases v <;> rfl

theorem exists_sortKeys_obj (kvs : List (PyStr × Json)) : ∃ lws, (obj kvs).sortKeys = obj lws ∧
    ∀ names, hasFields lws names = hasFields kvs names := by
  refine ⟨sortMembers (sortKeysMembers kvs), rfl, fun names => ?_⟩
  have hperm : ((sortMembers (sortKeysMembers kvs)).map Prod.fst).Perm (kvs.map Prod.fst) := by
    rw [← keys_sortKeysMembers kvs]
    exact (List.perm_insertionSort _ _).map Prod.fst
  have hall : ∀ lws : List (PyStr × Json), lws.all (fun kv => kv.1 ∈ names) =
      (lws.map Prod.fst).all (· ∈ names) := by
    intro lws
    rw [List.all_map]
    rfl
  have hmem : ∀ k, k ∈ (sortMembers (sortKeysMembers kvs)).map Prod.fst ↔ k ∈ kvs.map Prod.fst :=
    fun k => hperm.mem_iff
  simp only [hasFields, hall, hperm.all_eq, hmem]

theorem eqTexts_sortKeys (h : v.WF) (expected : List (PyStr × PyStr)) :
    v.sortKeys.eqTexts expected = v.eqTexts expected := by
  cases v with
  | obj kvs =>
    obtain ⟨lws, hs, hf⟩ := exists_sortKeys_obj kvs
    have hlookup : ∀ k s, (lws.lookup k).any (eqStr · s) = (kvs.lookup k).any (eqStr · s) := by
      intro k s
      have hget := get_sortKeys h k
      rw [hs, get_obj, get_obj] at hget
      rw [hget, Option.any_map]
      simp only [eqStr_sortKeys]
    rw [hs]
    simp only [eqTexts, hf, hlookup]
  | _ => rfl

theorem sortKeys_erase_sortKeys (h : v.WF) (k : PyStr) :
    (v.sortKeys.erase k).sortKeys = (v.erase k).sortKeys := by
  cases v with
  | obj kvs =>
    obtain ⟨lws, hs, -⟩ := exists_sortKeys_obj kvs
    have hkeys : (lws.map Prod.fst).Nodup := by
      have hw := wf_sortKeys _ h
      rw [hs] at hw
      exact hw.1
    rw [hs]
    refine (sortKeys_obj_eq_iff (nodup_keys_filter hkeys k) (nodup_keys_filter h.1 k)).mpr ?_
    intro l
    have hget := get_sortKeys h l
    rw [hs, get_obj, get_obj] at hget
    rw [lookup_filter_ne, lookup_filter_ne, hget]
    split_ifs
    · rfl
    · cases kvs.lookup l with
      | none => rfl
      | some x => exact congrArg some (sortKeys_sortKeys x)
  | _ => exact sortKeys_sortKeys _

theorem wf_erase (h : v.WF) (k : PyStr) : (v.erase k).WF := by
  cases v with
  | obj kvs =>
    refine ⟨nodup_keys_filter h.1 k, wfMembers_iff.mpr fun kv hkv => ?_⟩
    exact wfMembers_iff.mp h.2 kv (List.mem_filter.mp hkv).1
  | _ => exact h

theorem sortKeys_erase_congr {w : Json} (hv : v.WF) (hw : w.WF) (h : v.sortKeys = w.sortKeys)
    (k : PyStr) : (v.erase k).sortKeys = (w.erase k).sortKeys := by
  rw [← sortKeys_erase_sortKeys hv, ← sortKeys_erase_sortKeys hw, h]

end Python.Json

namespace HistoryAnchor

open Python Python.Json

variable {v : Json} {kvs : List (PyStr × Json)}

theorem requireDigest_sortKeys (type : ExcType) (field : PyStr) :
    requireDigest type v.sortKeys field = requireDigest type v field := by
  cases v <;> rfl

theorem memberOf_sortKeys_ok {names : List PyStr} {known : Bool} :
    memberOf v.sortKeys names = .ok known ↔ memberOf v names = .ok known := by
  cases v with
  | arr | obj => exact iff_of_false nofun nofun
  | _ => rfl

namespace Codec

theorem canonicalJsonBytes_erase_sortKeys {b : Bytes} {k : PyStr} (hw : v.WF)
    (h : canonicalJsonBytes (v.erase k) = .ok b) :
    canonicalJsonBytes (v.sortKeys.erase k) = .ok b :=
  canonicalJsonBytes_of_sortKeys_eq (sortKeys_erase_sortKeys hw k).symm h

end Codec

namespace Records

theorem shortOrNull_sortKeys (n : ℕ) : shortOrNull v.sortKeys n = shortOrNull v n := by
  cases v <;> rfl

theorem shortText_sortKeys (n : ℕ) : shortText v.sortKeys n = shortText v n := by
  cases v <;> rfl

theorem requireText_sortKeys (hw : v.WF) (field : PyStr) :
    requireText v.sortKeys field = requireText v field := by
  rw [requireText, requireText, getD_null_sortKeys hw]
  cases v.getD field .null <;> rfl

theorem validateSource_sortKeys (hw : v.WF) (h : validateSource v = .ok ()) :
    validateSource v.sortKeys = .ok () := by
  cases v with
  | obj kvs =>
    obtain ⟨lws, hs, hf⟩ := exists_sortKeys_obj kvs
    rw [hs]
    simp only [validateSource, ← hs, hf, text_sortKeys hw, getD_null_sortKeys hw,
      shortOrNull_sortKeys] at h ⊢
    exact h
  | _ => exact h

theorem validateEvidence_sortKeys (hw : v.WF) (h : validateEvidence v = .ok ()) :
    validateEvidence v.sortKeys = .ok () := by
  cases v with
  | obj kvs =>
    obtain ⟨lws, hs, hf⟩ := exists_sortKeys_obj kvs
    rw [hs]
    simp only [validateEvidence, ← hs, hf, getD_null_sortKeys hw, shortOrNull_sortKeys,
      shortText_sortKeys, isNatural_sortKeys, requireDigest_sortKeys] at h ⊢
    exact h
  | _ => exact h

theorem validateHeader_sortKeys {kind : PyStr} (hw : v.WF) (h : validateHeader v = .ok kind) :
    validateHeader v.sortKeys = .ok kind := by
  cases v with
  | obj kvs =>
    obtain ⟨lws, hs, hf⟩ := exists_sortKeys_obj kvs
    rw [hs]
    simp only [validateHeader, ← hs, hf, getD_null_sortKeys hw, eqStr_sortKeys, eqInt_sortKeys,
      text_sortKeys hw, bind_ok, memberOf_sortKeys_ok] at h ⊢
    exact h
  | _ => exact h

theorem validateTexts_sortKeys (hw : v.WF) : validateTexts v.sortKeys = validateTexts v := by
  have htexts : requireText v.sortKeys = requireText v := funext (requireText_sortKeys hw)
  simp only [validateTexts, htexts, text_sortKeys hw, getD_null_sortKeys hw, shortOrNull_sortKeys]

theorem validateTarget_sortKeys {kind : PyStr} :
    validateTarget kind v.sortKeys = validateTarget kind v := by
  simp only [validateTarget, requireDigest_sortKeys]
  cases v <;> rfl

theorem normalizeList_sortKeys {field : PyStr} {xs : List Json}
    (h : normalizeList v field = .ok xs) :
    normalizeList v.sortKeys field = .ok (xs.map Json.sortKeys) := by
  cases v with
  | null =>
    obtain rfl := Except.ok.inj h
    rfl
  | arr ys =>
    obtain rfl := Except.ok.inj h
    exact congrArg Except.ok (sortKeysList_eq ys)
  | _ => exact (raise_ne_ok h).elim

theorem validateLists_sortKeys (hw : v.WF) (h : validateLists v = .ok ()) :
    validateLists v.sortKeys = .ok () := by
  simp only [validateLists, bind_ok, require_ok, exists_unit, forM_ok] at h
  obtain ⟨sources, hs, evidence, he, tags, ht, hls, hle, ⟨hlt, hall⟩, hsall, heall⟩ := h
  have hnormal : ∀ {field xs}, normalizeList (v.getD field .null) field = .ok xs →
      normalizeList (v.sortKeys.getD field .null) field = .ok (xs.map Json.sortKeys) := by
    intro field xs h
    rw [getD_null_sortKeys hw]
    exact normalizeList_sortKeys h
  have hwf : ∀ {field xs}, normalizeList (v.getD field .null) field = .ok xs →
      ∀ x ∈ xs, x.WF := by
    intro field xs h
    apply normalizeList_wf h
    rw [Json.getD]
    cases hk : v.get field with
    | none => trivial
    | some x => exact hw.get hk
  simp only [validateLists, bind_ok, require_ok, exists_unit, forM_ok]
  refine ⟨_, hnormal hs, _, hnormal he, _, hnormal ht, by rwa [List.length_map],
    by rwa [List.length_map], ⟨by rwa [List.length_map], ?_⟩, ?_, ?_⟩
  · simpa only [List.all_map, Function.comp_def, shortText_sortKeys] using hall
  · exact List.forall_mem_map.mpr fun x hx => validateSource_sortKeys (hwf hs x hx) (hsall x hx)
  · exact List.forall_mem_map.mpr fun x hx => validateEvidence_sortKeys (hwf he x hx) (heall x hx)

theorem requireSignature_sortKeys : requireSignature v.sortKeys = requireSignature v := by
  cases v <;> rfl

theorem calculateRecordId_sortKeys {id : PyStr} (hw : v.WF) (h : calculateRecordId v = .ok id) :
    calculateRecordId v.sortKeys = .ok id := by
  rw [calculateRecordId, bind_ok] at h ⊢
  obtain ⟨b, hb, hid⟩ := h
  exact ⟨b, Codec.canonicalJsonBytes_erase_sortKeys hw hb, hid⟩

variable [Ed25519]

theorem validateRecord_sortKeys {verifySignature : Bool} (hw : v.WF)
    (h : validateRecord v verifySignature = .ok ()) :
    validateRecord v.sortKeys verifySignature = .ok () := by
  simp only [validateRecord, bind_ok, exists_unit] at h ⊢
  obtain ⟨kind, hheader, htexts, htarget, hlists, hidentity⟩ := h
  refine ⟨kind, validateHeader_sortKeys hw hheader, ?_, ?_, validateLists_sortKeys hw hlists, ?_⟩
  · rw [validateTexts_sortKeys hw]
    exact htexts
  · rw [getD_null_sortKeys hw, validateTarget_sortKeys]
    exact htarget
  · simp only [validateIdentity, bind_ok, require_ok, exists_unit] at hidentity ⊢
    obtain ⟨signature, hsignature, id, hid, calculated, hc, he, hsigned⟩ := hidentity
    refine ⟨signature, ?_, id, ?_, calculated, calculateRecordId_sortKeys hw hc, he, ?_⟩
    · rw [getD_null_sortKeys hw, requireSignature_sortKeys]
      exact hsignature
    · rw [getD_null_sortKeys hw, requireDigest_sortKeys]
      exact hid
    · cases verifySignature with
      | false => exact hsigned
      | true =>
        simp only [if_true, bind_ok, require_ok] at hsigned ⊢
        obtain ⟨message, hmessage, hverify⟩ := hsigned
        refine ⟨message, ?_, by rwa [text_sortKeys hw]⟩
        have hbody : (signingBody v).sortKeys = (signingBody v.sortKeys).sortKeys :=
          (sortKeys_erase_congr (wf_erase (wf_sortKeys v hw) _) (wf_erase hw _)
            (sortKeys_erase_sortKeys hw _) _).symm
        exact Codec.canonicalJsonBytes_of_sortKeys_eq hbody hmessage

end Records

namespace Batches

theorem validateHeader_sortKeys (hw : v.WF) (h : validateHeader v = .ok ()) :
    validateHeader v.sortKeys = .ok () := by
  cases v with
  | obj kvs =>
    obtain ⟨lws, hs, hf⟩ := exists_sortKeys_obj kvs
    rw [hs]
    simp only [validateHeader, ← hs, hf, getD_null_sortKeys hw, eqStr_sortKeys, eqInt_sortKeys,
      isNatural_sortKeys, bind_ok, memberOf_sortKeys_ok] at h ⊢
    exact h
  | _ => exact h

theorem validateRecordIds_sortKeys : validateRecordIds v.sortKeys = validateRecordIds v := by
  cases v with
  | arr xs =>
    have hmap : ∀ ys : List Json, (ys.map Json.sortKeys).mapM
        (fun item => requireDigest .batchValidationError item "record_id") =
          ys.mapM fun item => requireDigest .batchValidationError item "record_id" := by
      intro ys
      rw [List.mapM_map]
      exact congrArg (List.mapM · ys) (funext fun y => requireDigest_sortKeys _ _)
    rw [Json.sortKeys, sortKeysList_eq]
    cases xs with
    | nil => rfl
    | cons x xs =>
      have hx := hmap (x :: xs)
      rw [List.map_cons] at hx ⊢
      simp only [validateRecordIds, hx, List.length_cons, List.length_map]
  | _ => rfl

theorem calculateBatchId_sortKeys {id : PyStr} (hw : v.WF) (h : calculateBatchId v = .ok id) :
    calculateBatchId v.sortKeys = .ok id := by
  rw [calculateBatchId, bind_ok] at h ⊢
  obtain ⟨b, hb, hid⟩ := h
  have hbody : (manifestBody v).sortKeys = (manifestBody v.sortKeys).sortKeys :=
    (sortKeys_erase_congr (wf_erase (wf_sortKeys v hw) _) (wf_erase hw _)
      (sortKeys_erase_sortKeys hw _) _).symm
  exact ⟨b, Codec.canonicalJsonBytes_of_sortKeys_eq hbody hb, hid⟩

theorem decodePayload_sortKeys : decodePayload v.sortKeys = decodePayload v := by
  cases v <;> rfl

theorem validateBatch_sortKeys (hw : v.WF) (h : validateBatch v = .ok ()) :
    validateBatch v.sortKeys = .ok () := by
  have halgorithms : (v.getD "algorithms" .null).WF := by
    rw [Json.getD]
    cases hk : v.get "algorithms" with
    | none => trivial
    | some x => exact hw.get hk
  simp only [validateBatch, validateIdentity, bind_ok, require_ok, exists_unit] at h ⊢
  obtain ⟨hheader, ids, hids, hcount, root, hroot, hmerkle, hnames, id, hid, calculated, hc, he,
    payload, hpayload, hcommits⟩ := h
  refine ⟨validateHeader_sortKeys hw hheader, ids, ?_, ?_, root, hroot, ?_, ?_, id, ?_, calculated,
    calculateBatchId_sortKeys hw hc, he, payload, ?_, hcommits⟩
  · rwa [getD_null_sortKeys hw, validateRecordIds_sortKeys]
  · rwa [getD_null_sortKeys hw, eqInt_sortKeys]
  · rwa [getD_null_sortKeys hw, eqStr_sortKeys]
  · rwa [getD_null_sortKeys hw, eqTexts_sortKeys halgorithms]
  · rwa [getD_null_sortKeys hw, requireDigest_sortKeys]
  · rwa [getD_sortKeys hw _ rfl, decodePayload_sortKeys]

end Batches

namespace Anchors

theorem digestOrNull_sortKeys (field : PyStr) :
    digestOrNull v.sortKeys field = digestOrNull v field := by
  cases v <;> rfl

theorem naturalOrNull_sortKeys : naturalOrNull v.sortKeys = naturalOrNull v := by
  cases v <;> rfl

theorem validateAnchorReference_sortKeys (hw : v.WF) (h : validateAnchorReference v = .ok ()) :
    validateAnchorReference v.sortKeys = .ok () := by
  cases v with
  | obj kvs =>
    obtain ⟨lws, hs, hf⟩ := exists_sortKeys_obj kvs
    rw [hs]
    simp only [validateAnchorReference, ← hs, hf, getD_null_sortKeys hw, requireDigest_sortKeys,
      isNatural_sortKeys, digestOrNull_sortKeys, naturalOrNull_sortKeys, bind_ok,
      memberOf_sortKeys_ok] at h ⊢
    exact h
  | _ => exact h

end Anchors

namespace Archive

variable [Ed25519]

theorem Contents.sortKeys {rs bs as : List Json} (h : Contents rs bs as) (hrs : ∀ r ∈ rs, r.WF)
    (hbs : ∀ b ∈ bs, b.WF) (has : ∀ a ∈ as, a.WF) :
    Contents (rs.map Json.sortKeys) (bs.map Json.sortKeys) (as.map Json.sortKeys) := by
  have htexts : ∀ {xs : List Json}, (∀ x ∈ xs, x.WF) → ∀ k,
      (xs.map Json.sortKeys).map (Json.text · k) = xs.map (Json.text · k) := by
    intro xs hxs k
    rw [List.map_map]
    exact List.map_congr_left fun x hx => text_sortKeys (hxs x hx) k
  constructor
  · exact List.forall_mem_map.mpr fun r hr => Records.validateRecord_sortKeys (hrs r hr) (h.records r hr)
  · rw [htexts hrs]
    exact h.recordIds
  · rw [htexts hrs]
    refine List.forall_mem_map.mpr fun r hr => ?_
    rw [text_sortKeys (hrs r hr)]
    exact h.targets r hr
  · exact List.forall_mem_map.mpr fun b hb => Batches.validateBatch_sortKeys (hbs b hb) (h.batches b hb)
  · rw [htexts hbs]
    exact h.batchIds
  · rw [htexts hrs]
    refine List.forall_mem_map.mpr fun b hb => ?_
    rw [items_sortKeys (hbs b hb)]
    refine List.forall_mem_map.mpr fun r hr => ?_
    rw [strValue_sortKeys]
    exact h.listed b hb r hr
  · exact List.forall_mem_map.mpr fun a ha =>
      Anchors.validateAnchorReference_sortKeys (has a ha) (h.anchors a ha)
  · rw [List.map_map]
    have hpoints : as.map ((fun a : Json => (a.text "txid", a.nat "vout")) ∘ Json.sortKeys) =
        as.map fun a => (a.text "txid", a.nat "vout") :=
      List.map_congr_left fun a ha => by
        simp only [Function.comp_apply, text_sortKeys (has a ha), nat_sortKeys (has a ha)]
    rw [hpoints]
    exact h.points
  · rw [htexts hbs]
    refine List.forall_mem_map.mpr fun a ha => ?_
    rw [text_sortKeys (has a ha)]
    exact h.anchored a ha

theorem validateSnapshot_sortKeys (hw : v.WF) (h : validateSnapshot v = .ok ()) :
    validateSnapshot v.sortKeys = .ok () := by
  cases v with
  | obj kvs =>
    obtain ⟨lws, hs, hf⟩ := exists_sortKeys_obj kvs
    obtain ⟨hfields, hschema, hversion, hcreated, hlists, ⟨id, hid, he⟩, hc⟩ :=
      validateSnapshot_iff.mp h
    have hitems : ∀ k, ∀ x ∈ (Json.obj kvs).items k, x.WF := by
      intro k x hx
      exact wfList_iff.mp (hw.get (items_ne_nil (List.ne_nil_of_mem hx))) x hx
    rw [hs]
    refine validateSnapshot_iff.mpr ⟨(hf _).trans hfields, ?_⟩
    simp only [← hs, getD_null_sortKeys hw, eqStr_sortKeys, eqInt_sortKeys, isNatural_sortKeys,
      items_sortKeys hw]
    refine ⟨hschema, hversion, hcreated, fun field hfield => ?_, ⟨id, ?_, he⟩,
      hc.sortKeys (hitems _) (hitems _) (hitems _)⟩
    · have hlist := hlists field hfield
      rw [requireList, require_ok] at hlist ⊢
      rw [getD_null_sortKeys hw]
      cases hx : (Json.obj kvs).getD field .null with
      | arr xs => rfl
      | _ => rw [hx] at hlist; cases hlist
    · rw [calculateSnapshotId, bind_ok] at hid ⊢
      obtain ⟨b, hb, hid⟩ := hid
      exact ⟨b, Codec.canonicalJsonBytes_erase_sortKeys hw hb, hid⟩
  | _ => exact h

end Archive

end HistoryAnchor

import HistoryAnchor.Protocol.Shapes
import HistoryAnchor.Protocol.Typed
import HistoryAnchor.Protocol.Widths
import Mathlib.Algebra.Group.Action.Defs

/-! # The largest records

The limits of validation count characters and items. Together they bound the bytes
of a record: a control character takes six of them.
-/

namespace HistoryAnchor

open Python

variable {v : Json} {kvs : List (PyStr × Json)} {n : ℕ}

/-- The width of an object whose fields have at most the given widths. -/
def fieldsWidth (bounds : List (PyStr × ℕ)) : ℕ :=
  (bounds.map fun b => Python.width (Json.quote b.1) + b.2 + 2).sum + 1

theorem width_le_fieldsWidth (bounds : List (PyStr × ℕ)) (hne : bounds ≠ [])
    (hb : (bounds.map Prod.fst).Nodup) (hk : (kvs.map Prod.fst).Nodup)
    (hf : Json.hasFields kvs (bounds.map Prod.fst) = true)
    (h : ∀ b ∈ bounds, ((Json.obj kvs).getD b.1 .null).width ≤ b.2) :
    (Json.obj kvs).width ≤ fieldsWidth bounds := by
  have hperm : (kvs.map Prod.fst).Perm (bounds.map Prod.fst) := by
    simp only [Json.hasFields, Bool.and_eq_true, List.all_eq_true, decide_eq_true_eq] at hf
    apply (List.perm_ext_iff_of_nodup hk hb).mpr
    intro k
    constructor
    · intro hmem
      obtain ⟨kv, hkv, rfl⟩ := List.mem_map.mp hmem
      exact hf.1 kv hkv
    · exact hf.2 k
  have hkvs : kvs ≠ [] := by
    rintro rfl
    exact hne (List.map_eq_nil_iff.mp hperm.nil_eq.symm)
  set bound : PyStr → ℕ := fun k => (bounds.lookup k).getD 0 with hbound
  have hlookup : ∀ b ∈ bounds, bound b.1 = b.2 := by
    intro b hmem
    have hsome : bounds.lookup b.1 = some b.2 := by
      cases hl : bounds.lookup b.1 with
      | none =>
        have hn := List.lookup_eq_none_iff.mp hl b hmem
        simp at hn
      | some m =>
        have he := List.inj_on_of_nodup_map hb (Json.mem_of_lookup hl) hmem rfl
        rw [← he]
    rw [hbound]
    simp only [hsome, Option.getD_some]
  have hmember : ∀ kv ∈ kvs, Json.memberWidth kv ≤ Python.width (Json.quote kv.1) + bound kv.1 + 2 := by
    intro kv hkv
    obtain ⟨b, hb', he⟩ := List.mem_map.mp (hperm.subset (List.mem_map_of_mem hkv))
    have hle := h b hb'
    have hget : kvs.lookup kv.1 = some kv.2 := (Json.lookup_eq_some_iff hk).mpr hkv
    rw [he, Json.getD, Json.get_obj, hget, Option.getD_some, ← hlookup b hb', he] at hle
    rw [Json.memberWidth]
    omega
  have hsum : (kvs.map fun kv => Python.width (Json.quote kv.1) + bound kv.1 + 2).sum =
      (bounds.map fun b => Python.width (Json.quote b.1) + b.2 + 2).sum := by
    have hmap := (hperm.map fun k => Python.width (Json.quote k) + bound k + 2).sum_eq
    rw [List.map_map, List.map_map] at hmap
    calc (kvs.map fun kv => Python.width (Json.quote kv.1) + bound kv.1 + 2).sum
      _ = (bounds.map fun b => Python.width (Json.quote b.1) + bound b.1 + 2).sum := hmap
      _ = (bounds.map fun b => Python.width (Json.quote b.1) + b.2 + 2).sum :=
        congrArg List.sum (List.map_congr_left fun b hb' => by rw [hlookup b hb'])
  rw [Json.width_obj hkvs, fieldsWidth, ← hsum]
  exact Nat.add_le_add_right (List.sum_le_sum hmember) 1

theorem width_le_of_shortOrNull (h : Records.shortOrNull v n = true) (hn : 1 ≤ n) :
    v.width ≤ 6 * n + 2 := by
  cases v with
  | null =>
    have hnull : Json.null.width = 4 := rfl
    omega
  | str s =>
    have hlen : s.length ≤ n := of_decide_eq_true h
    have := Json.width_str_le s
    omega
  | _ => cases h

theorem width_le_of_shortText (h : Records.shortText v n = true) : v.width ≤ 6 * n + 2 := by
  cases v with
  | str s =>
    simp only [Records.shortText, Bool.and_eq_true, decide_eq_true_eq] at h
    have := Json.width_str_le s
    omega
  | _ => cases h

theorem width_le_of_requireDigest {type : ExcType} {field s : PyStr}
    (h : requireDigest type v field = .ok s) : v.width ≤ 386 := by
  obtain ⟨rfl, raw, hlen, -⟩ := requireDigest_ok.mp h
  have := Json.width_str_le s
  omega

theorem width_le_of_text {record : Json} {field : PyStr} (h : Records.requireText record field = .ok ())
    (hlen : (record.text field).length ≤ n) : (record.getD field .null).width ≤ 6 * n + 2 := by
  unfold Records.requireText at h
  unfold Json.text at hlen
  unfold Json.getD at h ⊢
  cases hg : record.get field with
  | none =>
    rw [hg] at h
    exact (raise_ne_ok h).elim
  | some x =>
    rw [hg] at h hlen
    cases x with
    | str s =>
      replace hlen : s.length ≤ n := hlen
      have := Json.width_str_le s
      exact this.trans (by omega)
    | _ => exact (raise_ne_ok h).elim

theorem width_le_of_isNatural {d : ℕ} (h : v.isNatural = true) (he : Encodes d v) :
    v.width ≤ 16 := by
  cases he with
  | int _ hn =>
    rename_i m
    obtain ⟨k, rfl⟩ := Int.eq_ofNat_of_zero_le (of_decide_eq_true h)
    have hk : k < 10 ^ 16 := by
      have hle : (k : ℤ) ≤ 9007199254740991 := hn.2
      omega
    show Python.width (decimal k) ≤ 16
    rw [width_decimal]
    exact length_decimal_le (by decide) hk
  | _ => cases h

theorem width_le_of_list {field : PyStr} {xs : List Json} {m : ℕ}
    (h : Records.normalizeList v field = .ok xs) (hlen : xs.length ≤ m)
    (hxs : ∀ x ∈ xs, x.width ≤ n) : v.width ≤ m * (n + 1) + 4 := by
  cases v with
  | null =>
    have hnull : Json.null.width = 4 := rfl
    omega
  | arr ys =>
    obtain rfl := Except.ok.inj h
    have hsum : (ys.map fun x => x.width + 1).sum ≤ ys.length * (n + 1) := by
      have hcard := List.sum_le_card_nsmul (ys.map fun x => x.width + 1) (n + 1) (by
        intro w hw
        obtain ⟨x, hx, rfl⟩ := List.mem_map.mp hw
        exact Nat.add_le_add_right (hxs x hx) 1)
      rwa [List.length_map, smul_eq_mul] at hcard
    have hmul : ys.length * (n + 1) ≤ m * (n + 1) := Nat.mul_le_mul_right _ hlen
    have := Json.width_arr_le ys
    omega
  | _ => exact (raise_ne_ok h).elim

namespace Records

def sourceBounds : List (PyStr × ℕ) := [("uri", 12290), ("label", 1442)]

def evidenceBounds : List (PyStr × ℕ) :=
  [("filename", 1532), ("size", 16), ("mime_type", 1532), ("sha256", 386), ("cid", 3074)]

theorem width_of_validateSource (h : validateSource v = .ok ()) (hw : v.WF) :
    v.width ≤ fieldsWidth sourceBounds := by
  cases v with
  | obj fields =>
    simp only [validateSource, bind_ok, require_ok, exists_unit] at h
    obtain ⟨hf, huri, hlen, hlabel⟩ := h
    apply width_le_fieldsWidth sourceBounds (by decide) (by decide) hw.1 hf
    simp only [sourceBounds, List.forall_mem_cons]
    refine ⟨?_, width_le_of_shortOrNull hlabel (by decide), fun _ h => absurd h List.not_mem_nil⟩
    cases hg : (Json.obj fields).get (ascii "uri") with
    | none =>
      rw [Json.text, hg] at huri
      exact absurd rfl huri
    | some x =>
      cases x with
      | str s =>
        rw [Json.text, hg] at hlen
        rw [Json.getD, hg]
        exact (Json.width_str_le s).trans (Nat.add_le_add_right (Nat.mul_le_mul_left 6 hlen) 2)
      | _ =>
        rw [Json.text, hg] at huri
        exact absurd rfl huri
  | _ => exact (raise_ne_ok h).elim

theorem width_of_validateEvidence {d : ℕ} (h : validateEvidence v = .ok ()) (hw : v.WF)
    (he : Encodes d v) : v.width ≤ fieldsWidth evidenceBounds := by
  cases v with
  | obj fields =>
    simp only [validateEvidence, bind_ok, require_ok, exists_unit] at h
    obtain ⟨hf, sha, hsha, hname, hsize, hmime, hcid⟩ := h
    have hsize' : Encodes (d + 1) ((Json.obj fields).getD (ascii "size") .null) := by
      cases he with
      | obj hd hkeys hvals =>
        obtain ⟨x, hx⟩ := Json.get_of_hasFields hf (k := "size") (by decide)
        rw [Json.getD, hx]
        exact hvals _ (Json.mem_of_lookup hx)
    apply width_le_fieldsWidth evidenceBounds (by decide) (by decide) hw.1 hf
    simp only [evidenceBounds, List.forall_mem_cons]
    exact ⟨width_le_of_shortText hname, width_le_of_isNatural hsize hsize',
      width_le_of_shortOrNull hmime (by decide), width_le_of_requireDigest hsha,
      width_le_of_shortOrNull hcid (by decide), fun _ h => absurd h List.not_mem_nil⟩
  | _ => exact (raise_ne_ok h).elim

theorem normalizeList_encodes {d : ℕ} {field : PyStr} {xs : List Json}
    (h : normalizeList v field = .ok xs) (he : Encodes d v) : ∀ x ∈ xs, Encodes (d + 1) x := by
  cases he with
  | null =>
    obtain rfl := Except.ok.inj h
    exact fun x hx => absurd hx List.not_mem_nil
  | arr _ hxs =>
    obtain rfl := Except.ok.inj h
    exact hxs
  | _ => exact (raise_ne_ok h).elim

theorem width_of_validateTarget {kind : PyStr} (h : validateTarget kind v = .ok ()) :
    v.width ≤ 386 := by
  unfold validateTarget at h
  split_ifs at h
  · simp only [bind_ok] at h
    obtain ⟨s, hs, -⟩ := h
    exact width_le_of_requireDigest hs
  · cases v with
    | null => decide
    | _ => exact (raise_ne_ok h).elim

theorem width_of_requireSignature {signature : PyStr} (h : requireSignature v = .ok signature) :
    v.width ≤ 1538 := by
  cases v with
  | str s =>
    simp only [requireSignature, bind_ok, require_ok, exists_unit] at h
    have := Json.width_str_le s
    omega
  | _ => exact (raise_ne_ok h).elim

def recordBounds : List (PyStr × ℕ) :=
  [("schema", 12), ("version", 4), ("kind", 182), ("created_at", 386), ("event_time", 3074),
   ("author_id", 266), ("author_public_key", 386), ("title", 1442), ("statement", 600002),
   ("target_record_id", 386), ("sources", 32 * (fieldsWidth sourceBounds + 1) + 4),
   ("evidence", 64 * (fieldsWidth evidenceBounds + 1) + 4), ("tags", 32 * 387 + 4),
   ("signature", 1538), ("record_id", 386)]

theorem width_of_kind {kind : PyStr} (h : kind ∈ allowedKinds) : (Json.str kind).width ≤ 182 := by
  have hall : allowedKinds.all fun kind => decide (kind.length ≤ 30) := by decide
  have hlen : kind.length ≤ 30 := of_decide_eq_true (List.all_eq_true.mp hall kind h)
  have := Json.width_str_le kind
  omega

theorem length_authorId {publicKey author : PyStr}
    (h : Crypto.publicKeyToAuthorId publicKey = .ok author) : author.length ≤ 44 := by
  unfold Crypto.publicKeyToAuthorId at h
  cases hx : fromHex publicKey with
  | none =>
    rw [hx] at h
    exact (raise_ne_ok h).elim
  | some raw =>
    rw [hx] at h
    obtain rfl := Except.ok.inj h
    have hlen : (blake2b raw 20).length ≤ 20 := by
      rw [blake2b]
      exact List.length_take_le 20 _
    have hprefix : (ascii "hap1").length = 4 := by decide
    rw [List.length_append, length_hex, hprefix]
    omega

theorem width_of_validateRecord [Ed25519] {verifySignature : Bool}
    (h : validateRecord v verifySignature = .ok ()) (hw : v.WF) :
    v.width ≤ fieldsWidth recordBounds := by
  have hencodes := validateRecord_encodes h hw (by decide : 0 + 3 ≤ 32)
  have hversion := version_of_validateRecord h
  simp only [validateRecord, bind_ok, exists_unit] at h
  obtain ⟨kind, hheader, htexts, htarget, hlists, hidentity⟩ := h
  obtain ⟨⟨fields, rfl, hf⟩, hkind, hallowed⟩ := validateHeader_ok hheader
  have hpart : ∀ k, ((Json.obj fields).getD k .null).WF ∧
      Encodes 1 ((Json.obj fields).getD k .null) := by
    intro k
    cases hk : (Json.obj fields).get k with
    | none =>
      rw [Json.getD, hk]
      exact ⟨trivial, .null (by decide)⟩
    | some x =>
      rw [Json.getD, hk]
      cases hencodes with
      | obj _ _ hvals => exact ⟨hw.get hk, hvals _ (Json.mem_of_lookup hk)⟩
  simp only [validateHeader, bind_ok, require_ok, exists_unit] at hheader
  obtain ⟨-, hschema, -, -, -, -, -⟩ := hheader
  simp only [validateTexts, bind_ok, require_ok, exists_unit, forM_ok, List.forall_mem_cons]
    at htexts
  obtain ⟨⟨hcreated, hauthor, hkey, htitle, hstatement, -⟩, hcreatedLen, -, hevent, htitleLen,
    hstatementLen, hkeyLen, -, author, hauthorId, rfl⟩ := htexts
  simp only [validateLists, bind_ok, require_ok, exists_unit, forM_ok] at hlists
  obtain ⟨sources, hsources, evidence, hevidence, tags, htags, hsourcesLen, hevidenceLen,
    ⟨htagsLen, hall⟩, hs, he⟩ := hlists
  simp only [validateIdentity, bind_ok] at hidentity
  obtain ⟨signature, hsignature, recordId, hrecordId, -⟩ := hidentity
  have hschema' : ((Json.obj fields).getD "schema" .null).width ≤ 12 := by
    rw [Batches.eqStr_iff.mp hschema]
    decide
  have hversion' : ((Json.obj fields).getD "version" .null).width ≤ 4 := by
    rcases hversion with hv | hv
    · rw [Json.getD, hv]
      decide
    · rw [Json.getD, hv]
      decide
  have hkind' : ((Json.obj fields).getD "kind" .null).width ≤ 182 := by
    rw [Json.getD, hkind]
    exact width_of_kind hallowed
  have hsources' := width_le_of_list hsources hsourcesLen fun x hx =>
    width_of_validateSource (hs x hx) (normalizeList_wf hsources (hpart _).1 x hx)
  have hevidence' := width_le_of_list hevidence hevidenceLen fun x hx =>
    width_of_validateEvidence (he x hx) (normalizeList_wf hevidence (hpart _).1 x hx)
      (normalizeList_encodes hevidence (hpart _).2 x hx)
  have htags' := width_le_of_list htags htagsLen fun x hx =>
    width_le_of_shortText (List.all_eq_true.mp hall x hx)
  apply width_le_fieldsWidth recordBounds (by decide) (by decide) hw.1 hf
  simp only [recordBounds, List.forall_mem_cons]
  exact ⟨hschema', hversion', hkind', width_le_of_text hcreated hcreatedLen,
    width_le_of_shortOrNull hevent (by decide),
    width_le_of_text hauthor (length_authorId hauthorId), width_le_of_text hkey hkeyLen.le,
    width_le_of_text htitle htitleLen, width_le_of_text hstatement hstatementLen,
    width_of_validateTarget htarget, hsources', hevidence', htags',
    width_of_requireSignature hsignature, width_le_of_requireDigest hrecordId,
    fun _ h => absurd h List.not_mem_nil⟩

/-- The fields that are signed, of a claim under the sample key. -/
def claimFields (title statement : PyStr) : List (PyStr × Json) :=
  [("schema", .str "hap.record"), ("version", .int 1), ("kind", .str "claim"),
   ("created_at", .str "2026-07-19T10:00:00Z"), ("event_time", .null),
   ("author_id", .str "hap1187fc17d77ec0e3c6ec1cf6374b04d9594c9659a"),
   ("author_public_key", .str samplePublicKey), ("title", .str title),
   ("statement", .str statement), ("target_record_id", .null), ("sources", .arr []),
   ("evidence", .arr []), ("tags", .arr [])]

def claimEnvelope (title statement signature : PyStr) : Json :=
  .obj (claimFields title statement ++ [(ascii "signature", .str signature)])

def claimId (title statement signature : PyStr) : PyStr :=
  match Codec.canonicalJsonBytes (claimEnvelope title statement signature) with
  | .ok m => Codec.sha256Hex m
  | .error _ => []

def claim (title statement signature : PyStr) : Json :=
  .obj (claimFields title statement ++ [(ascii "signature", .str signature),
    (ascii "record_id", .str (claimId title statement signature))])

@[reducible] def claimKeys (claims : List (PyStr × PyStr × PyStr)) : Ed25519 where
  verify publicKey signature message :=
    some publicKey = fromHex samplePublicKey ∧ claims.any fun (title, statement, signatureB64) =>
      decide (some signature = b64decode signatureB64) &&
        match Codec.canonicalJsonBytes (.obj (claimFields title statement)) with
        | .ok m => decide (m = message)
        | .error _ => false

/-- The text may stand in a field of at most `n` characters. -/
structure Fits (n : ℕ) (s : PyStr) : Prop where
  strip_ne_nil : strip s ≠ []
  length_le : s.length ≤ n
  encodable : Encodable s

theorem strip_replicate {c : CodePoint} (h : isSpace c = false) (n : ℕ) :
    strip (List.replicate n c) = List.replicate n c := by
  have hdrop : (List.replicate n c).dropWhile isSpace = List.replicate n c := by
    cases n with
    | zero => rfl
    | succ n => rw [List.replicate_succ, List.dropWhile_cons_of_neg (by rw [h]; decide)]
  rw [strip, hdrop, List.reverse_replicate, hdrop, List.reverse_replicate]

section Validity

variable {title statement signature : PyStr}

theorem envelopeForId_claim :
    envelopeForId (claim title statement signature) = claimEnvelope title statement signature := rfl

theorem validateHeader_claim : validateHeader (claim title statement signature) = .ok "claim" := rfl

theorem encodes_claimFields (htitle : Encodable title) (hstatement : Encodable statement)
    (rest : List (PyStr × Json)) (hrest : ∀ kv ∈ rest, Encodable kv.1 ∧ Encodes 1 kv.2) :
    Encodes 0 (.obj (claimFields title statement ++ rest)) := by
  have hkeys : ∀ kv ∈ claimFields title statement, Encodable kv.1 := by
    intro kv hkv
    have hmem : kv.1 ∈ (claimFields title statement).map Prod.fst := List.mem_map_of_mem hkv
    have hall : ((claimFields [] []).map Prod.fst).all (fun k => k.all fun c => c.val < 0x80) := by
      decide
    exact encodable_of_all (List.all_eq_true.mp hall kv.1 hmem)
  have htext : ∀ s : PyStr, s.all (fun c => c.val < 0x80) = true → Encodes 1 (.str s) :=
    fun s hs => .str (by decide) (encodable_of_all hs)
  have hvals : ∀ kv ∈ claimFields title statement, Encodes 1 kv.2 := by
    have hempty : ∀ x ∈ ([] : List Json), Encodes 2 x := fun _ h => absurd h List.not_mem_nil
    simp only [claimFields, List.forall_mem_cons]
    exact ⟨htext _ (by decide), .int (by decide) (by decide), htext _ (by decide),
      htext _ (by decide), .null (by decide), htext _ (by decide), htext _ (by decide),
      .str (by decide) htitle, .str (by decide) hstatement, .null (by decide),
      .arr (by decide) hempty, .arr (by decide) hempty, .arr (by decide) hempty,
      fun _ h => absurd h List.not_mem_nil⟩
  have hall : ∀ kv ∈ claimFields title statement ++ rest, Encodable kv.1 ∧ Encodes 1 kv.2 :=
    List.forall_mem_append.mpr ⟨fun kv hkv => ⟨hkeys kv hkv, hvals kv hkv⟩, hrest⟩
  exact .obj (by decide) (fun kv hkv => (hall kv hkv).1) fun kv hkv => (hall kv hkv).2

theorem validateTexts_claim (htitle : Fits maxTitleChars title)
    (hstatement : Fits maxStatementChars statement) :
    validateTexts (claim title statement signature) = .ok () := by
  simp only [validateTexts, bind_ok, require_ok, exists_unit, forM_ok, List.forall_mem_cons]
  exact ⟨⟨requireText_str rfl (by decide), requireText_str rfl (by decide),
    requireText_str rfl (by decide), requireText_str rfl htitle.strip_ne_nil,
    requireText_str rfl hstatement.strip_ne_nil, fun _ h => absurd h List.not_mem_nil⟩,
    sampleTime_valid.1, sampleTime_valid.2, rfl, htitle.length_le, hstatement.length_le, samplePublicKey_hex.1, samplePublicKey_hex.2, _,
    samplePublicKey_author, rfl⟩

variable {claims : List (PyStr × PyStr × PyStr)}

/-- Whatever text within the limits is claimed, the record is valid once it is signed. -/
theorem claim_valid (hmem : (title, statement, signature) ∈ claims)
    (htitle : Fits maxTitleChars title) (hstatement : Fits maxStatementChars statement)
    (hsignature : signature.length ≤ 256 ∧ Encodable signature ∧ b64decode signature ≠ none) :
    @validateRecord (claimKeys claims) (claim title statement signature) true = .ok () := by
  obtain ⟨hlen, hencodable, hdecode⟩ := hsignature
  have hname : Encodable (ascii "signature") := encodable_of_all (by decide)
  have hsigned : ∀ kv ∈ [(ascii "signature", Json.str signature)],
      Encodable kv.1 ∧ Encodes 1 kv.2 := by
    intro kv hkv
    rw [List.mem_singleton.mp hkv]
    exact ⟨hname, .str (by decide) hencodable⟩
  obtain ⟨envelope, henvelope⟩ := Codec.exists_canonicalJsonBytes_iff.mpr
    (encodes_claimFields htitle.encodable hstatement.encodable _ hsigned)
  obtain ⟨message, hmessage⟩ : ∃ m, Codec.canonicalJsonBytes (.obj (claimFields title statement)) =
      .ok m := by
    have hencodes := encodes_claimFields htitle.encodable hstatement.encodable []
      fun _ h => absurd h List.not_mem_nil
    rw [List.append_nil] at hencodes
    exact Codec.exists_canonicalJsonBytes_iff.mpr hencodes
  have hid : claimId title statement signature = Codec.sha256Hex envelope := by
    have henvelope' : Codec.canonicalJsonBytes (claimEnvelope title statement signature) =
        .ok envelope := henvelope
    unfold claimId
    rw [henvelope']
  have hcalculated : calculateRecordId (claim title statement signature) =
      .ok (claimId title statement signature) := by
    rw [calculateRecordId, envelopeForId_claim, claimEnvelope, henvelope, hid]
    rfl
  have hdigest : requireDigest .recordValidationError (.str (claimId title statement signature))
      "record_id" = .ok (claimId title statement signature) := by
    apply requireDigest_ok.mpr
    refine ⟨rfl, sha256 envelope, ?_⟩
    rw [hid, Codec.sha256Hex]
    exact ⟨by rw [length_hex, length_sha256], fromHex_hex _, length_sha256 _⟩
  have hverify : @Crypto.verify (claimKeys claims) samplePublicKey signature message = true := by
    cases hraw : b64decode signature with
    | none => exact absurd hraw hdecode
    | some raw =>
      cases hkey : fromHex samplePublicKey with
      | none => exact absurd hkey (by decide +kernel)
      | some key =>
        unfold Crypto.verify
        simp only [hraw, hkey]
        apply decide_eq_true
        refine ⟨hkey.symm, List.any_eq_true.mpr ⟨_, hmem, ?_⟩⟩
        simp only [hraw, hmessage, decide_true, Bool.and_self]
  have hrequire : requireSignature (.str signature) = .ok signature := by
    rw [requireSignature, require, if_pos hlen]
    rfl
  have htarget : validateTarget "claim" .null = .ok () := by decide
  have hlists : validateLists (claim title statement signature) = .ok () := rfl
  simp only [validateRecord, bind_ok, exists_unit]
  refine ⟨_, validateHeader_claim, validateTexts_claim htitle hstatement, htarget, hlists, ?_⟩
  simp only [validateIdentity, bind_ok, require_ok, exists_unit, if_true]
  exact ⟨signature, hrequire, _, hdigest, _, hcalculated, rfl, message, hmessage, hverify⟩

theorem width_of_statement : width statement ≤ (claim title statement signature).width := by
  have hmem : (ascii "statement", Json.str statement) ∈ claimFields title statement ++
      [(ascii "signature", Json.str signature),
        (ascii "record_id", .str (claimId title statement signature))] :=
    List.mem_append_left _ (by simp only [claimFields, List.mem_cons, true_or, or_true])
  exact (Json.le_width_str statement).trans (Json.width_le_of_mem hmem)

theorem claim_wf : (claim title statement signature).WF := by
  refine ⟨?_, ?_⟩
  · show ((claimFields [] [] ++ [(ascii "signature", Json.null),
      (ascii "record_id", Json.null)]).map Prod.fst).Nodup
    decide
  · simp only [claimFields, List.cons_append, List.nil_append, Json.WFMembers, Json.WF,
      Json.WFList, and_self]

end Validity

end Records

end HistoryAnchor

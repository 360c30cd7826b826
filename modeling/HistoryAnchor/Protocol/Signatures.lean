import HistoryAnchor.Protocol.Uniqueness

/-! # Spellings of a signature

`b64decode` ignores the low bits of the last symbol that no byte takes. The identifier
of a record hashes the text of its signature, and with it these bits, which the
signature itself does not fix.
-/

namespace Python

def unusedBits : PyStr → ℕ
  | _ :: b :: c :: d :: s =>
    if s = [] then
      if c.val = 61 ∧ d.val = 61 then (base64Value b).getD 0 % 16
      else if d.val = 61 then (base64Value c).getD 0 % 4
      else 0
    else unusedBits s
  | _ => 0

/-- A text in groups of four symbols with the bytes that they stand for. -/
inductive Decodes : PyStr → Bytes → Prop
  | nil {bs : Bytes} : bs = [] → Decodes [] bs
  | one {a b c d : CodePoint} {x y : ℕ} {bs : Bytes} : base64Value a = some x →
      base64Value b = some y → c.val = 61 → d.val = 61 → bs = [UInt8.ofNat (4 * x + y / 16)] →
        Decodes [a, b, c, d] bs
  | two {a b c d : CodePoint} {x y z : ℕ} {bs : Bytes} : base64Value a = some x →
      base64Value b = some y → base64Value c = some z → d.val = 61 →
        bs = [UInt8.ofNat (4 * x + y / 16), UInt8.ofNat (y % 16 * 16 + z / 4)] →
          Decodes [a, b, c, d] bs
  | more {a b c d : CodePoint} {x y z w : ℕ} {s : PyStr} {bs rest : Bytes} :
      base64Value a = some x → base64Value b = some y → base64Value c = some z →
        base64Value d = some w → Decodes s rest → bs = UInt8.ofNat (4 * x + y / 16) ::
          UInt8.ofNat (y % 16 * 16 + z / 4) :: UInt8.ofNat (z % 4 * 64 + w) :: rest →
            Decodes (a :: b :: c :: d :: s) bs

theorem decodes_of_b64decode {s : PyStr} {bs : Bytes} (h : b64decode s = some bs) :
    Decodes s bs := by
  induction s using b64decode.induct generalizing bs with
  | case1 => exact .nil (Option.some.inj h).symm
  | case2 a b c d s ih =>
    simp only [b64decode, Option.bind_eq_bind, Option.bind_eq_some_iff, Option.pure_def] at h
    obtain ⟨x, hx, y, hy, h⟩ := h
    split_ifs at h with hone htwo
    · obtain ⟨hc, hd, rfl⟩ := hone
      exact .one hx hy hc hd (Option.some.inj h).symm
    · simp only [Option.bind_eq_some_iff] at h
      obtain ⟨z, hz, h⟩ := h
      obtain ⟨hd, rfl⟩ := htwo
      exact .two hx hy hz hd (Option.some.inj h).symm
    · simp only [Option.bind_eq_some_iff, Option.some.injEq] at h
      obtain ⟨z, hz, w, hw, rest, hrest, he⟩ := h
      exact .more hx hy hz hw (ih hrest) he.symm
  | case3 s hnil hcons => simp [b64decode] at h

theorem base64Value_inj {a b : CodePoint} {x : ℕ} (ha : base64Value a = some x)
    (hb : base64Value b = some x) : a = b := by
  unfold base64Value at ha hb
  dsimp only at ha hb
  apply Fin.ext
  split_ifs at ha hb <;> simp only [Option.some.injEq] at ha hb <;> omega

theorem base64Value_lt {a : CodePoint} {x : ℕ} (ha : base64Value a = some x) :
    x < 64 ∧ a.val ≠ 61 := by
  unfold base64Value at ha
  dsimp only at ha
  split_ifs at ha <;> simp only [Option.some.injEq] at ha <;> omega

theorem unusedBits_of_value {a b c d : CodePoint} {w : ℕ} {s : PyStr}
    (hd : base64Value d = some w) : unusedBits (a :: b :: c :: d :: s) = unusedBits s := by
  have hne := (base64Value_lt hd).2
  rw [unusedBits]
  by_cases hs : s = []
  · rw [if_pos hs, if_neg (fun h => hne h.2), if_neg hne, hs]
    rfl
  · rw [if_neg hs]

theorem Decodes.unique {s t : PyStr} {bs : Bytes} (hs : Decodes s bs) (ht : Decodes t bs)
    (h : unusedBits s = unusedBits t) : s = t := by
  induction hs generalizing t with
  | nil hbs =>
    cases ht with
    | nil => rfl
    | one _ _ _ _ hbs' | two _ _ _ _ hbs' | more _ _ _ _ _ hbs' =>
      exact absurd (hbs.symm.trans hbs') (by simp)
  | @one a b c d x y bs hx hy hc hd hbs =>
    cases ht with
    | nil hbs' | two _ _ _ _ hbs' | more _ _ _ _ _ hbs' =>
      exact absurd (hbs.symm.trans hbs') (by simp)
    | @one a' b' c' d' x' y' _ hx' hy' hc' hd' hbs' =>
      have hlx := (base64Value_lt hx).1
      have hly := (base64Value_lt hy).1
      have hlx' := (base64Value_lt hx').1
      have hly' := (base64Value_lt hy').1
      have he := hbs.symm.trans hbs'
      simp only [List.cons.injEq, and_true] at he
      rw [ofNat_inj (by omega) (by omega)] at he
      simp only [unusedBits, hc, hd, hc', hd', hy, hy', Option.getD_some, and_self, if_true] at h
      obtain rfl : x = x' := by omega
      obtain rfl : y = y' := by omega
      rw [base64Value_inj hx hx', base64Value_inj hy hy', Fin.ext (hc.trans hc'.symm),
        Fin.ext (hd.trans hd'.symm)]
  | @two a b c d x y z bs hx hy hz hd hbs =>
    cases ht with
    | nil hbs' | one _ _ _ _ hbs' | more _ _ _ _ _ hbs' =>
      exact absurd (hbs.symm.trans hbs') (by simp)
    | @two a' b' c' d' x' y' z' _ hx' hy' hz' hd' hbs' =>
      have hlx := (base64Value_lt hx).1
      have hly := (base64Value_lt hy).1
      obtain ⟨hlz, hcne⟩ := base64Value_lt hz
      have hlx' := (base64Value_lt hx').1
      have hly' := (base64Value_lt hy').1
      obtain ⟨hlz', hcne'⟩ := base64Value_lt hz'
      have he := hbs.symm.trans hbs'
      simp only [List.cons.injEq, and_true] at he
      rw [ofNat_inj (by omega) (by omega), ofNat_inj (by omega) (by omega)] at he
      simp only [unusedBits, hd, hd', hcne, hcne', hz, hz', Option.getD_some, false_and, if_true,
        if_false] at h
      obtain rfl : x = x' := by omega
      obtain rfl : y = y' := by omega
      obtain rfl : z = z' := by omega
      rw [base64Value_inj hx hx', base64Value_inj hy hy', base64Value_inj hz hz',
        Fin.ext (hd.trans hd'.symm)]
  | @more a b c d x y z w s bs rest hx hy hz hw _ hbs ih =>
    cases ht with
    | nil hbs' | one _ _ _ _ hbs' | two _ _ _ _ hbs' =>
      exact absurd (hbs.symm.trans hbs') (by simp)
    | @more a' b' c' d' x' y' z' w' s' _ rest' hx' hy' hz' hw' ht' hbs' =>
      have hlx := (base64Value_lt hx).1
      have hly := (base64Value_lt hy).1
      have hlz := (base64Value_lt hz).1
      have hlw := (base64Value_lt hw).1
      have hlx' := (base64Value_lt hx').1
      have hly' := (base64Value_lt hy').1
      have hlz' := (base64Value_lt hz').1
      have hlw' := (base64Value_lt hw').1
      have he := hbs.symm.trans hbs'
      simp only [List.cons.injEq] at he
      obtain ⟨h₁, h₂, h₃, rfl⟩ := he
      rw [ofNat_inj (by omega) (by omega)] at h₁ h₂ h₃
      rw [unusedBits_of_value hw, unusedBits_of_value hw'] at h
      obtain rfl : x = x' := by omega
      obtain rfl : y = y' := by omega
      obtain rfl : z = z' := by omega
      obtain rfl : w = w' := by omega
      rw [base64Value_inj hx hx', base64Value_inj hy hy', base64Value_inj hz hz',
        base64Value_inj hw hw', ih ht' h]

theorem b64decode_inj {s t : PyStr} {bs : Bytes} (hs : b64decode s = some bs)
    (ht : b64decode t = some bs) (h : unusedBits s = unusedBits t) : s = t :=
  (decodes_of_b64decode hs).unique (decodes_of_b64decode ht) h

namespace Json

theorem erase_comm (v : Json) (k l : PyStr) : (v.erase k).erase l = (v.erase l).erase k := by
  cases v with
  | obj kvs =>
    simp only [erase, List.filter_filter]
    congr 2
    funext kv
    exact Bool.and_comm _ _
  | _ => rfl

end Json

end Python

namespace HistoryAnchor

open Python

namespace Records

section Signed

variable [Ed25519]

/-- The signature of an accepted record decodes, and its identifier hashes its envelope. -/
theorem signature_of_validateRecord {record : Json} (h : validateRecord record true = .ok ()) :
    ∃ fields signature m bs, record = .obj fields ∧
      record.get "signature" = some (.str signature) ∧ b64decode signature = some bs ∧
      Codec.canonicalJsonBytes (envelopeForId record) = .ok m ∧
      record.text "record_id" = hex (sha256 m) := by
  obtain ⟨fields, id, rfl, hf, hid, hc⟩ := validateRecord_ok h
  simp only [calculateRecordId, bind_ok] at hc
  obtain ⟨m, hm, hx⟩ := hc
  simp only [validateRecord, bind_ok, exists_unit] at h
  obtain ⟨kind, -, -, -, -, h⟩ := h
  simp only [validateIdentity, bind_ok, exists_unit, if_true, require_ok] at h
  obtain ⟨signature, hs, -, -, -, -, -, message, -, hverify⟩ := h
  obtain ⟨x, hget⟩ := Json.get_of_hasFields hf (k := "signature") (by decide)
  rw [Json.getD, hget, Option.getD_some] at hs
  cases x with
  | str t =>
    simp only [requireSignature, bind_ok, exists_unit] at hs
    obtain rfl : t = signature := Except.ok.inj hs.2
    unfold Crypto.verify at hverify
    split at hverify
    · rename_i publicKey bs hkey hdecode
      refine ⟨fields, t, m, bs, rfl, hget, hdecode, hm, ?_⟩
      rw [Json.text, hid]
      exact (Except.ok.inj hx).symm
    · cases hverify
  | _ => exact (raise_ne_ok hs).elim

/-- Two records with one signed body whose signatures decode to the same bytes have the same
identifier exactly if the spellings of the signatures agree in the bits that no byte takes. -/
theorem record_id_eq_iff {r s : Json} (hw : r.WF) (hw' : s.WF)
    (hr : validateRecord r true = .ok ()) (hs : validateRecord s true = .ok ())
    (hbody : (signingBody r).sortKeys = (signingBody s).sortKeys)
    (hdecode : b64decode (r.text "signature") = b64decode (s.text "signature"))
    (hS : Set.InjOn sha256 {m | Codec.canonicalJsonBytes (envelopeForId r) = .ok m ∨
      Codec.canonicalJsonBytes (envelopeForId s) = .ok m}) :
    r.text "record_id" = s.text "record_id" ↔
      unusedBits (r.text "signature") = unusedBits (s.text "signature") := by
  obtain ⟨fields, signature, m, bs, rfl, hget, hbs, hm, hid⟩ := signature_of_validateRecord hr
  obtain ⟨fields', signature', m', bs', rfl, hget', hbs', hm', hid'⟩ :=
    signature_of_validateRecord hs
  have hne : ascii "signature" ≠ ascii "record_id" := by decide
  have hlookup : ∀ fs : List (PyStr × Json),
      (fs.filter fun kv => kv.1 ≠ ascii "record_id").lookup (ascii "signature") =
        fs.lookup (ascii "signature") :=
    fun fs => (Json.lookup_filter_ne fs _ _).trans (if_neg hne)
  have htext : Json.text (.obj fields) "signature" = signature ∧
      Json.text (.obj fields') "signature" = signature' := by
    simp only [Json.text, hget, hget', and_self]
  rw [htext.1, htext.2] at hdecode ⊢
  rw [hid, hid']
  constructor
  · intro he
    obtain rfl : m = m' := hS (.inl hm) (.inr hm') (hex_injective he)
    have hsort := (Json.sortKeys_obj_eq_iff (Json.nodup_keys_filter hw.1 _)
      (Json.nodup_keys_filter hw'.1 _)).mp (Codec.canonicalJsonBytes_inj hm hm') "signature"
    rw [hlookup, hlookup, show fields.lookup _ = _ from hget, show fields'.lookup _ = _ from hget']
      at hsort
    rw [Json.str.inj (Option.some.inj hsort)]
  · intro hbits
    obtain rfl : signature = signature' :=
      b64decode_inj hbs (hdecode.symm.trans hbs) hbits
    have herase : ((envelopeForId (.obj fields)).erase "signature").sortKeys =
        ((envelopeForId (.obj fields')).erase "signature").sortKeys := by
      rw [envelopeForId, envelopeForId, Json.erase_comm, Json.erase_comm (.obj fields')]
      exact hbody
    have hsort : (envelopeForId (.obj fields)).sortKeys = (envelopeForId (.obj fields')).sortKeys :=
      Json.sortKeys_eq_of_erase (Json.nodup_keys_filter hw.1 _) (Json.nodup_keys_filter hw'.1 _)
        herase ((hlookup _).trans (hget.trans (hget'.symm.trans (hlookup _).symm)))
    rw [Codec.canonicalJsonBytes_congr hsort hm hm']

end Signed

section Sample

def sampleSignature : PyStr :=
  "+qITooKwQRlSIELALYGVp7Qy82x0JwZ3FKOs1F71U42S78X5gWjAW24VLAMrmuxm9IBPgETwuYDZ1fEJB9xmDw=="

def respelledSignature : PyStr :=
  "+qITooKwQRlSIELALYGVp7Qy82x0JwZ3FKOs1F71U42S78X5gWjAW24VLAMrmuxm9IBPgETwuYDZ1fEJB9xmDx=="

@[reducible] def sampleKeys : Ed25519 :=
  keyring samplePublicKey
    [("87759fb8110538181cdb362272d0f825ea7e28b17b042b36c0ce17c1f9019fc5", sampleSignature)]

def signedSample (signature recordId : PyStr) : Json :=
  sampleRecord (.int 1) "claim" .null (.arr [.str "hap:person-impact:none"]) signature recordId

def signedRecord : Json := signedSample sampleSignature
  "ee8090f2561c04e94986db5aa987c0028c72b64a72a2c4484562dfab614ac2c9"

def respelledRecord : Json := signedSample respelledSignature
  "c499ce8f78a412968dc595cf69d0f40dc8c51dab83f1184bb44bbed7c0fb5b6d"

attribute [local instance] sampleKeys

theorem signedRecord_valid : validateRecord signedRecord true = .ok () :=
  sampleRecord_valid (by decide +kernel)

theorem respelledRecord_valid : validateRecord respelledRecord true = .ok () :=
  sampleRecord_valid (by decide +kernel)

theorem signedSample_wf (signature recordId : PyStr) : (signedSample signature recordId).WF := by
  simp only [signedSample, sampleRecord, Json.WF, Json.WFMembers, Json.WFList, List.map_cons,
    List.map_nil, and_true]
  decide

theorem signedSample_decode : b64decode (signedRecord.text "signature") =
    b64decode (respelledRecord.text "signature") := by decide +kernel

theorem injOn_signedSamples : Set.InjOn sha256
    {m | Codec.canonicalJsonBytes (envelopeForId signedRecord) = .ok m ∨
      Codec.canonicalJsonBytes (envelopeForId respelledRecord) = .ok m} := by
  obtain ⟨_, _, m, _, -, -, -, hm, hid⟩ := signature_of_validateRecord signedRecord_valid
  obtain ⟨_, _, m', _, -, -, -, hm', hid'⟩ := signature_of_validateRecord respelledRecord_valid
  have hne : sha256 m ≠ sha256 m' := by
    intro he
    rw [← congrArg hex he] at hid'
    exact absurd (hid.trans hid'.symm) (by decide)
  rintro a (ha | ha) b (hb | hb) he
  · exact Except.ok.inj (ha.symm.trans hb)
  · obtain rfl := Except.ok.inj (ha.symm.trans hm)
    obtain rfl := Except.ok.inj (hb.symm.trans hm')
    exact absurd he hne
  · obtain rfl := Except.ok.inj (ha.symm.trans hm')
    obtain rfl := Except.ok.inj (hb.symm.trans hm)
    exact absurd he.symm hne
  · exact Except.ok.inj (ha.symm.trans hb)

theorem record_id_eq_iff_sample :
    signedRecord.text "record_id" = respelledRecord.text "record_id" ↔
      unusedBits (signedRecord.text "signature") = unusedBits (respelledRecord.text "signature") :=
  record_id_eq_iff (signedSample_wf _ _) (signedSample_wf _ _) signedRecord_valid
    respelledRecord_valid rfl signedSample_decode injOn_signedSamples

/-- One signed body and one signature under two identifiers. -/
theorem record_id_malleable : signedRecord.WF ∧ respelledRecord.WF ∧
    validateRecord signedRecord true = .ok () ∧ validateRecord respelledRecord true = .ok () ∧
    signingBody signedRecord = signingBody respelledRecord ∧
    b64decode (signedRecord.text "signature") = b64decode (respelledRecord.text "signature") ∧
    signedRecord.text "record_id" ≠ respelledRecord.text "record_id" :=
  ⟨signedSample_wf _ _, signedSample_wf _ _, signedRecord_valid, respelledRecord_valid, rfl,
    signedSample_decode, by decide⟩

end Sample

end Records

end HistoryAnchor

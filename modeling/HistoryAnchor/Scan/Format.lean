import HistoryAnchor.Scan.Interruption

/-! # The commitment format

The scripts that the scanner accepts are those that the two encoders build, but
with any commitment type: the type byte is read and not compared. A scan stores
exactly the specified commitments as long as no output carries another type.
-/

namespace HistoryAnchor

open Python Discovery

namespace Bitcoin

/-- The script has the bytes that the encoders build for the digest under a commitment type. -/
def IsCommitment (scriptHex : PyStr) (type : UInt8) (manifestHash : PyStr) : Prop :=
  ∃ payloadHex built, encodeAnchorPayload manifestHash type = .ok payloadHex ∧
    buildOpReturnScript payloadHex = .ok built ∧ fromHex scriptHex = fromHex built

def payloadBytes (type : UInt8) (digest : Bytes) : Bytes := magic ++ [version, type] ++ digest

theorem length_payloadBytes {type : UInt8} {digest : Bytes} (h : digest.length = 32) :
    (payloadBytes type digest).length = 38 := by
  simp [payloadBytes, magic, h]

theorem encodeAnchorPayload_hex {type : UInt8} {digest : Bytes} {payloadHex : PyStr} :
    encodeAnchorPayload (hex digest) type = .ok payloadHex ↔
      digest.length = 32 ∧ payloadHex = hex (payloadBytes type digest) := by
  simp only [encodeAnchorPayload, fromHex_hex, bind_ok, require_ok, exists_unit]
  exact and_congr_right fun _ => ⟨fun h => (Except.ok.inj h).symm, fun h => h ▸ rfl⟩

theorem isCommitment_iff {scriptHex : PyStr} {type : UInt8} {digest : Bytes} :
    IsCommitment scriptHex type (hex digest) ↔ digest.length = 32 ∧
      fromHex scriptHex = some (0x6A :: 38 :: payloadBytes type digest) := by
  have hbuild : digest.length = 32 → buildOpReturnScript (hex (payloadBytes type digest)) =
      .ok (hex (0x6A :: 38 :: payloadBytes type digest)) := by
    intro hl
    have hlen : (payloadBytes type digest).length = 38 := length_payloadBytes hl
    simp only [buildOpReturnScript, fromHex_hex, hlen]
    rfl
  constructor
  · rintro ⟨payloadHex, built, he, hb, hs⟩
    obtain ⟨hl, rfl⟩ := encodeAnchorPayload_hex.mp he
    rw [hbuild hl] at hb
    obtain rfl := Except.ok.inj hb
    exact ⟨hl, by rw [hs, fromHex_hex]⟩
  · rintro ⟨hl, hs⟩
    exact ⟨_, _, encodeAnchorPayload_hex.mpr ⟨hl, rfl⟩, hbuild hl, by rw [hs, fromHex_hex]⟩

theorem IsCommitment.unique {scriptHex : PyStr} {type type' : UInt8} {digest digest' : Bytes}
    (h : IsCommitment scriptHex type (hex digest))
    (h' : IsCommitment scriptHex type' (hex digest')) : type = type' ∧ digest = digest' := by
  obtain ⟨-, hs⟩ := isCommitment_iff.mp h
  obtain ⟨-, hs'⟩ := isCommitment_iff.mp h'
  rw [hs] at hs'
  simpa [payloadBytes, magic] using hs'

theorem exists_payloadBytes {raw : Bytes} (hl : raw.length = 38) (hm : raw.take 4 = magic)
    (hv : raw.getD 4 0 = version) :
    (raw.drop 6).length = 32 ∧ raw = payloadBytes (raw.getD 5 0) (raw.drop 6) := by
  refine ⟨by rw [List.length_drop, hl], ?_⟩
  have hget : ∀ n, (h : n < raw.length) → raw.getD n 0 = raw[n] := fun n h => by
    rw [List.getD_eq_getElem?_getD, List.getElem?_eq_getElem h, Option.getD_some]
  have h₄ : raw.drop 4 = raw.getD 4 0 :: raw.getD 5 0 :: raw.drop 6 := by
    rw [List.drop_eq_getElem_cons (by omega), List.drop_eq_getElem_cons (by omega),
      hget 4 (by omega), hget 5 (by omega)]
  rw [payloadBytes, ← hm, ← hv, List.append_assoc, List.cons_append, List.cons_append,
    List.nil_append, ← h₄, List.take_append_drop]

end Bitcoin

open Bitcoin

/-- The scanner accepts the built scripts of every commitment type, and no others. -/
theorem acceptedPayload_iff {scriptHex payloadHex : PyStr} {payload : AnchorPayload} :
    acceptedPayload scriptHex = some (payloadHex, payload) ↔ ∃ type digest,
      IsCommitment scriptHex type (hex digest) ∧ payloadHex = hex (payloadBytes type digest) ∧
        payload = ⟨version, type, hex digest⟩ := by
  constructor
  · intro h
    obtain ⟨he, -, hd⟩ := acceptedPayload_some h
    obtain ⟨raw, hraw, hl, hm, hv, rfl⟩ := decodeAnchorPayload_ok.mp hd
    unfold extractPayloadFromScript at he
    split at he
    · rename_i op size rest hscript
      split_ifs at he with hop
      obtain ⟨rfl, -, hsize⟩ := hop
      obtain rfl := Option.some.inj he
      obtain rfl : rest = raw := Option.some.inj ((fromHex_hex rest).symm.trans hraw)
      obtain ⟨hl', hbytes⟩ := exists_payloadBytes hl hm hv
      have h38 : size = 38 := UInt8.toNat_inj.mp (hsize.symm.trans hl)
      exact ⟨_, _, isCommitment_iff.mpr ⟨hl', by rw [hscript, h38, ← hbytes]⟩,
        congrArg hex hbytes, rfl⟩
    · cases he
  · rintro ⟨type, digest, hc, rfl, rfl⟩
    obtain ⟨hl, hs⟩ := isCommitment_iff.mp hc
    have hlen : (payloadBytes type digest).length = 38 := length_payloadBytes hl
    have hextract : extractPayloadFromScript scriptHex = some (hex (payloadBytes type digest)) := by
      simp only [extractPayloadFromScript, hs]
      exact if_pos ⟨trivial, by decide, hlen⟩
    have hne : hex (payloadBytes type digest) ≠ [] := by
      intro h
      have hzero := congrArg List.length h
      rw [length_hex, hlen] at hzero
      cases hzero
    have hdecode : decodeAnchorPayload (hex (payloadBytes type digest)) =
        .ok ⟨version, type, hex digest⟩ :=
      decodeAnchorPayload_ok.mpr ⟨_, fromHex_hex _, hlen, rfl, rfl, rfl⟩
    simp only [acceptedPayload, hextract, if_neg hne, hdecode]

section Runs

variable [Ed25519] {F : Set Chain} {start height : ℤ} {s₀ s : Store} {c : Chain} {x txid : PyStr}
  {b : Block} {t : Tx} {out : TxOut} {i : ℕ}

omit [Ed25519] in
theorem Chain.payload_of_point {height' : ℤ} {x' : PyStr} {b' : Block} {o : Output}
    (hx : c.at? height = some (x, b)) (hx' : c.at? height' = some (x', b')) (ht : t ∈ b.tx)
    (hi : t.txid = some txid) (hout : (out, i) ∈ t.vout.zipIdx) (ho : o ∈ b'.accepted)
    (hp : o.point = (txid, out.number i)) :
    acceptedPayload out.scriptHex = some (o.payloadHex, o.payload) := by
  obtain ⟨t', ht', hot⟩ := Block.mem_accepted.mp ho
  obtain ⟨txid', out', i', hi', hm', ha, hp'⟩ := Tx.mem_accepted hot
  obtain ⟨rfl, hn⟩ := Prod.mk.inj (hp.symm.trans hp')
  obtain ⟨-, rfl⟩ := Chain.tx_eq_of_txid hx hx' ht ht' hi hi'
  have he : (out, i) = (out', i') :=
    List.inj_on_of_nodup_map (c.numbers_nodup _ (Chain.mem_of_at? hx) t ht) hout hm' hn
  obtain ⟨rfl, -⟩ := Prod.mk.inj he
  exact ha

/-- A scanned output has a row exactly if its script is accepted, and the row carries what the
script commits to. -/
theorem Store.Mirrors.row_iff {next : ℤ} (hs : s.Mirrors c start next)
    (hx : c.at? height = some (x, b))
    (hscanned : ∃ row ∈ s.bitcoinBlocks, row.height = height ∧ row.blockHash = x) (ht : t ∈ b.tx)
    (hi : t.txid = some txid) (hout : (out, i) ∈ t.vout.zipIdx) :
    ((∃ r ∈ s.commitments, r.point = (txid, out.number i)) ↔
        ∃ type digest, IsCommitment out.scriptHex type (hex digest)) ∧
      ∀ r ∈ s.commitments, r.point = (txid, out.number i) → ∃ type digest,
        IsCommitment out.scriptHex type (hex digest) ∧ r.batchId = hex digest ∧
          encodeAnchorPayload (hex digest) type = .ok r.payloadHex := by
  have hrow : ∀ r ∈ s.commitments, r.point = (txid, out.number i) → ∃ type digest,
      IsCommitment out.scriptHex type (hex digest) ∧ r.batchId = hex digest ∧
        encodeAnchorPayload (hex digest) type = .ok r.payloadHex := by
    intro r hr hp
    obtain ⟨-, -, b', hx', o, ho, he⟩ := hs.rows r hr
    have hpo : o.point = (txid, out.number i) := (congrArg Core.point he).symm.trans hp
    obtain ⟨type, digest, hc, hph, hpl⟩ :=
      acceptedPayload_iff.mp (Chain.payload_of_point hx hx' ht hi hout ho hpo)
    have hid : r.batchId = o.payload.manifestHash := congrArg Core.batchId he
    have hpay : r.payloadHex = o.payloadHex := congrArg Core.payloadHex he
    exact ⟨type, digest, hc, by rw [hid, hpl],
      encodeAnchorPayload_hex.mpr ⟨(isCommitment_iff.mp hc).1, hpay.trans hph⟩⟩
  refine ⟨⟨fun ⟨r, hr, hp⟩ => ?_, fun ⟨type, digest, hc⟩ => ?_⟩, hrow⟩
  · obtain ⟨type, digest, hc, -⟩ := hrow r hr hp
    exact ⟨type, digest, hc⟩
  · obtain ⟨h₁, h₂, -⟩ := (hs.blocks height x).mp hscanned
    have hacc := acceptedPayload_iff.mpr ⟨type, digest, hc, rfl, rfl⟩
    have hmem : (⟨(txid, out.number i), hex (payloadBytes type digest),
        ⟨version, type, hex digest⟩⟩ : Output) ∈ b.accepted := by
      refine Block.mem_accepted.mpr ⟨t, ht, ?_⟩
      simp only [Tx.accepted, hi]
      exact List.mem_filterMap.mpr ⟨(out, i), hout, by rw [hacc]; rfl⟩
    obtain ⟨r, hr, he, -⟩ := hs.outputs height x b h₁ h₂ hx _ hmem
    exact ⟨r, hr, congrArg Core.point he⟩

/-- A scanned output has a row, with the specified batch and payload, exactly if its script is the
specified one: this holds of an output if and only if its script carries no other type. -/
theorem scanned_format_iff (hF : Consistent F) (h₀ : 0 ≤ start)
    (hb : s₀.bitcoinBlocks.rows = []) (hc : s₀.commitments.rows = [])
    (h : Scans F start s₀ c s) (hx : c.at? height = some (x, b))
    (hscanned : ∃ row ∈ s.bitcoinBlocks, row.height = height ∧ row.blockHash = x) (ht : t ∈ b.tx)
    (hi : t.txid = some txid) (hout : (out, i) ∈ t.vout.zipIdx) :
    (((∃ r ∈ s.commitments, r.point = (txid, out.number i)) ↔
        ∃ digest, IsCommitment out.scriptHex commitmentTypeBatchManifest (hex digest)) ∧
      ∀ r ∈ s.commitments, r.point = (txid, out.number i) → ∃ digest,
        IsCommitment out.scriptHex commitmentTypeBatchManifest (hex digest) ∧
          r.batchId = hex digest ∧
          encodeAnchorPayload (hex digest) commitmentTypeBatchManifest = .ok r.payloadHex) ↔
    ∀ type digest, IsCommitment out.scriptHex type (hex digest) →
      type = commitmentTypeBatchManifest := by
  obtain ⟨next, hs⟩ := h.mirrors hF h₀ (hashes_of_rows hb) (cores_of_rows hc)
  obtain ⟨hiff, hrow⟩ := hs.row_iff hx hscanned ht hi hout
  constructor
  · rintro ⟨hstored, -⟩ type digest hcm
    obtain ⟨digest', hcm'⟩ := hstored.mp (hiff.mpr ⟨type, digest, hcm⟩)
    exact (hcm.unique hcm').1
  · intro htype
    refine ⟨hiff.trans ⟨fun ⟨type, digest, hcm⟩ => ⟨digest, ?_⟩,
      fun ⟨digest, hcm⟩ => ⟨_, digest, hcm⟩⟩, fun r hr hp => ?_⟩
    · rwa [← htype type digest hcm]
    · obtain ⟨type, digest, hcm, hid, hph⟩ := hrow r hr hp
      obtain rfl := htype type digest hcm
      exact ⟨digest, hcm, hid, hph⟩

end Runs

section Witness

attribute [local instance] conformanceKeys

theorem scanned_format_iff_sample :
    (((∃ r ∈ (rescanned sampleOld .empty).commitments, r.point = (ascii "1f", 1)) ↔
        ∃ digest, IsCommitment ("6a26" ++ samplePayload) commitmentTypeBatchManifest
          (hex digest)) ∧
      ∀ r ∈ (rescanned sampleOld .empty).commitments, r.point = (ascii "1f", 1) → ∃ digest,
        IsCommitment ("6a26" ++ samplePayload) commitmentTypeBatchManifest (hex digest) ∧
          r.batchId = hex digest ∧
          encodeAnchorPayload (hex digest) commitmentTypeBatchManifest = .ok r.payloadHex) ↔
    ∀ type digest, IsCommitment ("6a26" ++ samplePayload) type (hex digest) →
      type = commitmentTypeBatchManifest :=
  have hscan : Scans {sampleOld} 0 .empty sampleOld (rescanned sampleOld .empty) :=
    .one rfl (@ScanCall.of_eval _ 0 500 sampleOld .empty (by decide +kernel))
  have hblock : sampleOld.at? 1 = some (ascii "0a", Block.mk (some 2) [sampleTx]) := rfl
  scanned_format_iff (by rintro c rfl c' rfl; decide) le_rfl rfl rfl hscan hblock
    (by decide +kernel) List.mem_cons_self rfl (List.mem_cons_of_mem _ List.mem_cons_self)

/-- A payload of commitment type `02`. -/
def sampleTyped : PyStr :=
  "4849535403025ca8c08e0aefbc9ecced864f9499b9f7c2b8af326257f6de2f9dd5488ba356fd"

def sampleTypedChain : Chain where
  network := "signet"
  blocks := [sampleGenesis, ("0a", ⟨some 2, [⟨some "1f", [⟨some 0, "6a26" ++ sampleTyped⟩]⟩]⟩)]
  hashes_nodup := by decide
  txids_nodup := by decide
  numbers_nodup := by decide

/-- The scan stores a commitment for an output that is not of the specified format. -/
theorem scanned_other_type : Scans {sampleTypedChain} 0 .empty sampleTypedChain
      (rescanned sampleTypedChain .empty) ∧
    (∃ r ∈ (rescanned sampleTypedChain .empty).commitments, r.point = (ascii "1f", 0)) ∧
    ¬ ∃ digest, IsCommitment ("6a26" ++ sampleTyped) commitmentTypeBatchManifest (hex digest) := by
  refine ⟨.one rfl (@ScanCall.of_eval _ 0 500 sampleTypedChain .empty (by decide +kernel)),
    by decide +kernel, ?_⟩
  rintro ⟨digest, h⟩
  obtain ⟨-, hs⟩ := isCommitment_iff.mp h
  have htype : ((fromHex ("6a26" ++ sampleTyped)).getD []).getD 7 0 = 1 := by
    rw [hs]
    rfl
  exact absurd htype (by decide +kernel)

end Witness

end HistoryAnchor

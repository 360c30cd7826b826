import HistoryAnchor.Protocol.Codec

/-! # Anchor payloads and scripts

A payload is 38 bytes: the magic, a version, a commitment type and the digest of
a batch manifest. The scanner reads it from the one push of an `OP_RETURN` script
and always spells it in lower case.
-/

namespace HistoryAnchor

open Python

namespace Bitcoin

/-- `b"HIST"`. -/
def magic : Bytes := [0x48, 0x49, 0x53, 0x54]

def version : UInt8 := 3
def commitmentTypeBatchManifest : UInt8 := 1

structure AnchorPayload where
  version : UInt8
  commitmentType : UInt8
  manifestHash : PyStr
  deriving DecidableEq

def encodeAnchorPayload (manifestHash : PyStr) (commitmentType : UInt8) : Py PyStr :=
  match fromHex manifestHash with
  | none => raise .valueError "manifest_hash must be hexadecimal"
  | some digest => do
    require (digest.length = 32) .valueError "manifest_hash must be a 32-byte hex digest"
    return hex (magic ++ [version, commitmentType] ++ digest)

def decodeAnchorPayload (payloadHex : PyStr) : Py AnchorPayload :=
  match fromHex payloadHex with
  | none => raise .valueError "non-hexadecimal number found in fromhex() arg"
  | some raw => do
    require (raw.length = 38) .valueError "anchor payload must be 38 bytes"
    require (raw.take 4 = magic) .valueError "invalid anchor magic"
    require (raw.getD 4 0 = version) .valueError "unsupported anchor version"
    return ⟨raw.getD 4 0, raw.getD 5 0, hex (raw.drop 6)⟩

def buildOpReturnScript (payloadHex : PyStr) : Py PyStr :=
  match fromHex payloadHex with
  | none => raise .valueError "non-hexadecimal number found in fromhex() arg"
  | some payload => do
    require (payload.length ≤ 75) .valueError
      "payload requires PUSHDATA encoding not supported by this helper"
    return hex (0x6A :: UInt8.ofNat payload.length :: payload)

def extractPayloadFromScript (scriptHex : PyStr) : Option PyStr :=
  match fromHex scriptHex with
  | some (op :: size :: rest) =>
    if op = 0x6A ∧ size.toNat ≤ 75 ∧ rest.length = size.toNat then some (hex rest) else none
  | _ => none

theorem decodeAnchorPayload_ok {payloadHex : PyStr} {p : AnchorPayload} :
    decodeAnchorPayload payloadHex = .ok p ↔ ∃ raw, fromHex payloadHex = some raw ∧
      raw.length = 38 ∧ raw.take 4 = magic ∧ raw.getD 4 0 = version ∧
      p = ⟨version, raw.getD 5 0, hex (raw.drop 6)⟩ := by
  unfold decodeAnchorPayload
  cases fromHex payloadHex with
  | none => exact ⟨fun h => (raise_ne_ok h).elim, fun ⟨_, h, _⟩ => nomatch h⟩
  | some raw =>
    simp only [bind_ok, require_ok, exists_unit, Option.some.injEq]
    constructor
    · rintro ⟨hl, hm, hv, h⟩
      exact ⟨raw, rfl, hl, hm, hv, by rw [← Except.ok.inj h, hv]⟩
    · rintro ⟨_, rfl, hl, hm, hv, rfl⟩
      exact ⟨hl, hm, hv, by rw [← hv]; rfl⟩

/-- The scanner's payloads are spelled as `bytes.hex` spells them. -/
theorem exists_hex_of_extract {scriptHex payloadHex : PyStr}
    (h : extractPayloadFromScript scriptHex = some payloadHex) : ∃ raw, payloadHex = hex raw := by
  unfold extractPayloadFromScript at h
  split at h
  · split_ifs at h
    exact ⟨_, (Option.some.inj h).symm⟩
  · cases h

theorem extract_buildOpReturnScript {payloadHex scriptHex : PyStr}
    (h : buildOpReturnScript payloadHex = .ok scriptHex) :
    ∃ raw, fromHex payloadHex = some raw ∧
      extractPayloadFromScript scriptHex = some (hex raw) := by
  unfold buildOpReturnScript at h
  cases hp : fromHex payloadHex with
  | none => rw [hp] at h; exact (raise_ne_ok h).elim
  | some raw =>
    simp only [hp, bind_ok, require_ok, exists_unit] at h
    obtain ⟨hl, h⟩ := h
    obtain rfl := Except.ok.inj h
    have hsize : (UInt8.ofNat raw.length).toNat = raw.length := by
      rw [UInt8.toNat_ofNat']
      omega
    refine ⟨raw, rfl, ?_⟩
    simp only [extractPayloadFromScript, fromHex_hex, hsize, hl, and_self, if_true]

end Bitcoin

end HistoryAnchor

import HistoryAnchor.Protocol.Records
import HistoryAnchor.Tables.Keyed

/-! # The evidence store

Files under the names of digests, written in lower case; their bytes may have been
truncated or corrupted since. A file counts only where its bytes still hash to its name.
-/

namespace HistoryAnchor

open Python Tables

structure EvidenceFile where
  name : PyStr
  content : Bytes
  named : ∃ raw, raw.length = 32 ∧ name = hex raw

abbrev EvidenceStore := Table EvidenceFile.name

namespace EvidenceStore

/-- `_validate_digest`: the digest in lower case. -/
def validateDigest (digest : Json) : Py PyStr :=
  match digest with
  | .str s => do
    require (s.length = 64) .evidenceStoreError
      "evidence digest must be a 32-byte hexadecimal SHA-256 value"
    match fromHex s with
    | none => raise .evidenceStoreError "evidence digest must be hexadecimal"
    | some raw =>
      require (raw.length = 32) .evidenceStoreError
        "evidence digest must be a 32-byte hexadecimal SHA-256 value"
      return lower s
  | _ => raise .evidenceStoreError "evidence digest must be a 32-byte hexadecimal SHA-256 value"

theorem validateDigest_ok {digest : Json} {name : PyStr} :
    validateDigest digest = .ok name ↔
      ∃ s raw, digest = .str s ∧ IsDigest s raw ∧ name = hex raw := by
  cases digest with
  | str s =>
    simp only [validateDigest, bind_ok, require_ok, exists_unit, Json.str.injEq]
    cases hs : fromHex s with
    | none =>
      refine iff_of_false (fun h => raise_ne_ok h.2) ?_
      rintro ⟨_, raw, rfl, hd, -⟩
      cases hs.symm.trans hd.2.1
    | some raw =>
      simp only [bind_ok, require_ok, exists_unit]
      constructor
      · rintro ⟨hl, hr, h⟩
        obtain rfl := Except.ok.inj h
        exact ⟨s, raw, rfl, ⟨hl, hs, hr⟩, lower_eq_hex hs (by omega)⟩
      · rintro ⟨_, raw', rfl, ⟨hl, hs', hr⟩, rfl⟩
        obtain rfl := Option.some.inj (hs.symm.trans hs')
        exact ⟨hl, hr, congrArg Except.ok (lower_eq_hex hs (by omega))⟩
  | _ =>
    refine iff_of_false raise_ne_ok ?_
    rintro ⟨s, raw, h, -⟩
    cases h

theorem named_of_validateDigest {digest : Json} {name : PyStr}
    (h : validateDigest digest = .ok name) : ∃ raw, raw.length = 32 ∧ name = hex raw := by
  obtain ⟨s, raw, -, hd, hn⟩ := validateDigest_ok.mp h
  exact ⟨raw, hd.2.2, hn⟩

theorem validateDigest_of_isDigest {s : PyStr} {raw : Bytes} (h : IsDigest s raw) :
    validateDigest (.str s) = .ok (hex raw) :=
  validateDigest_ok.mpr ⟨s, raw, rfl, h, rfl⟩

theorem isDigest_name (f : EvidenceFile) : ∃ raw, IsDigest f.name raw ∧ f.name = hex raw := by
  obtain ⟨raw, hl, hn⟩ := f.named
  refine ⟨raw, ⟨?_, ?_, hl⟩, hn⟩
  · rw [hn, length_hex, hl]
  · rw [hn, fromHex_hex]

theorem validateDigest_name (f : EvidenceFile) : validateDigest (.str f.name) = .ok f.name := by
  obtain ⟨raw, hd, hn⟩ := isDigest_name f
  rw [validateDigest_of_isDigest hd, ← hn]

def Intact (f : EvidenceFile) : Prop := Codec.sha256Hex f.content = f.name

instance (f : EvidenceFile) : Decidable (Intact f) := inferInstanceAs (Decidable (_ = _))

def has (e : EvidenceStore) (digest : Json) : Py Bool := do
  let name ← validateDigest digest
  return (e.find? name).isSome

def verify (e : EvidenceStore) (digest : Json) : Py Bool := do
  let name ← validateDigest digest
  return (e.find? name).any fun f => Intact f

def files (e : EvidenceStore) : List EvidenceFile := e.rows.insertionSort (·.name ≤ ·.name)

/-- What `store_stream` returns without the path. -/
structure Stored where
  sha256 : PyStr
  size : ℕ
  deriving DecidableEq

/-- `os.replace` of a temporary file. -/
def replace (e : EvidenceStore) (f : EvidenceFile) : EvidenceStore :=
  e.upsert (fun _ new => new) (fun _ _ => rfl) f

/-- Keep a file that verifies; else write what the stream holds once it has been checked. -/
def storeStream (e : EvidenceStore) (digest : Json) (stream : Bytes) (maxBytes : ℤ)
    (expectedSize : Option ℤ) : Py Stored × EvidenceStore :=
  match h : validateDigest digest with
  | .error exc => (.error exc, e)
  | .ok name =>
    match (e.find? name).filter fun f => Intact f with
    | some f => (.ok ⟨name, f.content.length⟩, e)
    | none =>
      if stream ≠ [] ∧ maxBytes < stream.length then
        (raise .evidenceStoreError "evidence download exceeds the configured size limit", e)
      else if expectedSize.any (· ≠ (stream.length : ℤ)) then
        (raise .evidenceStoreError "evidence size does not match its signed metadata", e)
      else if Codec.sha256Hex stream ≠ name then
        (raise .evidenceStoreError "evidence bytes do not match the committed SHA-256 digest", e)
      else
        (.ok ⟨name, stream.length⟩, e.replace ⟨name, stream, named_of_validateDigest h⟩)

end EvidenceStore

end HistoryAnchor

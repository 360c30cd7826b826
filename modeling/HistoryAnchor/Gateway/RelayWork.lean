import HistoryAnchor.Protocol.Records
import HistoryAnchor.Python.Numbers
import Mathlib.Data.Nat.Size
import Mathlib.Tactic.Ring

/-! # Relay proof-of-work

A relay asks for a nonce whose digest with the record's identifier starts with
enough zero bits, that is, lies below a power of two. The nonce is checked with
`str.isdigit` and then encoded in ASCII, and the two do not agree on what a digit is.
-/

namespace HistoryAnchor

open Python

namespace RelayWork

def leadingZeroBits : Bytes → ℕ
  | [] => 0
  | byte :: digest =>
    if byte.toNat = 0 then 8 + leadingZeroBits digest else 8 - Nat.size byte.toNat

example : leadingZeroBits [0x00, 0x0F] = 12 := by decide +kernel

/-- `b"HAP-RELAY-POW-V1\x00"`. -/
def relayPowDomain : Bytes := (utf8 "HAP-RELAY-POW-V1").getD [] ++ [0]

def octets (s : PyStr) : Bytes := s.map fun c => UInt8.ofNat c.val

/-- `str.encode("ascii")`. -/
def encodeAscii (s : PyStr) : Py Bytes := do
  require (s.all (·.val < 128)) .unicodeEncodeError
    "'ascii' codec can't encode: ordinal not in range(128)"
  return octets s

def relayPowMessage (recordId nonce : Bytes) : Bytes := relayPowDomain ++ recordId ++ 0 :: nonce

def relayPowDigest (recordId nonce : PyStr) : Py Bytes := do
  require (nonce ≠ [] ∧ nonce.length ≤ 64 ∧ isDigitText nonce) .policyError
    "relay proof nonce must be a decimal integer of 64 digits or fewer"
  let recordId ← encodeAscii recordId
  let nonce ← encodeAscii nonce
  return sha256 (relayPowMessage recordId nonce)

def verifyRelayPow (recordId : PyStr) (nonce : Option PyStr) (requiredBits : ℤ) : Py Bool :=
  if requiredBits ≤ 0 then return true
  else
    match nonce with
    | none => return false
    | some nonce =>
      match relayPowDigest recordId nonce with
      | .ok digest => return requiredBits ≤ leadingZeroBits digest
      | .error e => if e.type = .policyError then return false else .error e

/-- `str` of a natural number; the interpreter refuses long ones. -/
def strNat (n : ℕ) : Py PyStr := do
  require ((decimal n).length ≤ 4300) .valueError
    "Exceeds the limit (4300 digits) for integer string conversion"
  return decimal n

def mineFrom (recordId : PyStr) (requiredBits : ℤ) : ℕ → ℕ → Py PyStr
  | 0, _ => raise .policyError "relay proof was not found within max_attempts"
  | attempts + 1, nonce => do
    let text ← strNat nonce
    let digest ← relayPowDigest recordId text
    if requiredBits ≤ leadingZeroBits digest then return text
    else mineFrom recordId requiredBits attempts (nonce + 1)

def mineRelayPow (recordId : PyStr) (requiredBits start maxAttempts : ℤ) : Py PyStr :=
  if requiredBits ≤ 0 then return "0"
  else mineFrom recordId requiredBits maxAttempts.toNat (max 0 start).toNat

/-- A nonce that mining returns; without `max_attempts` it takes as many attempts as it needs. -/
def Mined (recordId : PyStr) (requiredBits start : ℤ) (maxAttempts : Option ℤ) (nonce : PyStr) :
    Prop :=
  match maxAttempts with
  | some n => mineRelayPow recordId requiredBits start n = .ok nonce
  | none => ∃ n, mineRelayPow recordId requiredBits start n = .ok nonce

theorem ofBytesBE_foldl (bs : Bytes) (n : ℕ) :
    bs.foldl (fun n b => 256 * n + b.toNat) n = n * 2 ^ (8 * bs.length) + ofBytesBE bs := by
  induction bs generalizing n with
  | nil => rw [List.length_nil, Nat.mul_zero, Nat.pow_zero, Nat.mul_one]; rfl
  | cons b bs ih =>
    have hhead : ofBytesBE (b :: bs) = b.toNat * 2 ^ (8 * bs.length) + ofBytesBE bs := by
      calc ofBytesBE (b :: bs)
          = (256 * 0 + b.toNat) * 2 ^ (8 * bs.length) + ofBytesBE bs := ih _
        _ = b.toNat * 2 ^ (8 * bs.length) + ofBytesBE bs := by rw [Nat.mul_zero, Nat.zero_add]
    rw [List.foldl_cons, ih, hhead, List.length_cons, Nat.mul_succ, Nat.pow_add]
    ring

theorem mul_add_lt_mul_iff {a j m r : ℕ} (hr : r < m) : a * m + r < j * m ↔ a < j := by
  constructor
  · intro h
    exact Nat.lt_of_mul_lt_mul_right ((Nat.le_add_right _ _).trans_lt h)
  · intro h
    have hmul := Nat.mul_le_mul_right m (Nat.succ_le_of_lt h)
    rw [Nat.succ_mul] at hmul
    omega

theorem ofBytesBE_cons (b : UInt8) (bs : Bytes) :
    ofBytesBE (b :: bs) = b.toNat * 2 ^ (8 * bs.length) + ofBytesBE bs := by
  rw [ofBytesBE, List.foldl_cons, ofBytesBE_foldl, Nat.mul_zero, Nat.zero_add]

theorem ofBytesBE_lt (bs : Bytes) : ofBytesBE bs < 2 ^ (8 * bs.length) := by
  induction bs with
  | nil => exact Nat.one_pos
  | cons b bs ih =>
    have hb : b.toNat + 1 ≤ 2 ^ 8 := b.toNat_lt
    have hmul := Nat.mul_le_mul_right (2 ^ (8 * bs.length)) hb
    rw [ofBytesBE_cons, List.length_cons, Nat.mul_succ, Nat.add_comm (8 * bs.length), Nat.pow_add]
    rw [Nat.add_mul, Nat.one_mul] at hmul
    omega

/-- The leading zero bits are at least `k` exactly if the number lies below the power of two that
leaves `k` bits out. -/
theorem le_leadingZeroBits_iff {bs : Bytes} {k : ℕ} (hk : k ≤ 8 * bs.length) :
    k ≤ leadingZeroBits bs ↔ ofBytesBE bs < 2 ^ (8 * bs.length - k) := by
  induction bs generalizing k with
  | nil =>
    obtain rfl := Nat.le_zero.mp hk
    exact iff_of_true (Nat.zero_le _) Nat.one_pos
  | cons b bs ih =>
    rw [List.length_cons, Nat.mul_succ] at hk ⊢
    have hrest := ofBytesBE_lt bs
    rw [leadingZeroBits, ofBytesBE_cons]
    by_cases hb : b.toNat = 0
    · rw [if_pos hb, hb, Nat.zero_mul, Nat.zero_add]
      by_cases h8 : k ≤ 8
      · refine iff_of_true (by omega) (hrest.trans_le ?_)
        exact Nat.pow_le_pow_right Nat.two_pos (by omega)
      · obtain ⟨j, rfl⟩ := Nat.exists_eq_add_of_le (Nat.le_of_not_le h8)
        rw [Nat.add_le_add_iff_left, ih (by omega)]
        have he : 8 * bs.length + 8 - (8 + j) = 8 * bs.length - j := by omega
        rw [he]
    · rw [if_neg hb]
      have hsize : Nat.size b.toNat ≤ 8 := Nat.size_le.mpr b.toNat_lt
      by_cases h8 : k ≤ 8
      · obtain ⟨j, hj⟩ := Nat.exists_eq_add_of_le h8
        have he : 8 * bs.length + 8 - k = j + 8 * bs.length := by omega
        have hle : k ≤ 8 - Nat.size b.toNat ↔ Nat.size b.toNat ≤ j := by omega
        rw [hle, Nat.size_le, he, Nat.pow_add]
        exact (mul_add_lt_mul_iff hrest).symm
      · have hpos : 0 < Nat.size b.toNat := Nat.size_pos.mpr (Nat.pos_of_ne_zero hb)
        refine iff_of_false (by omega) (Nat.not_lt.mpr ?_)
        have hpow : 2 ^ (8 * bs.length + 8 - k) ≤ 2 ^ (8 * bs.length) :=
          Nat.pow_le_pow_right Nat.two_pos (by omega)
        have hmul : 1 * 2 ^ (8 * bs.length) ≤ b.toNat * 2 ^ (8 * bs.length) :=
          Nat.mul_le_mul_right _ (Nat.pos_of_ne_zero hb)
        omega

variable {recordId nonce : PyStr} {requiredBits : ℤ}

def IsNonce (nonce : PyStr) : Prop :=
  nonce ≠ [] ∧ nonce.length ≤ 64 ∧ ∀ c ∈ nonce, 48 ≤ c.val ∧ c.val ≤ 57

def Foreign (nonce : PyStr) : Prop :=
  nonce.length ≤ 64 ∧ isDigitText nonce ∧ ∃ c ∈ nonce, 128 ≤ c.val

def IsHexId (recordId : PyStr) : Prop := recordId.length = 64 ∧ ∀ c ∈ recordId, digitValue c ≠ none

/-- The digest of the nonce, as a number, leaves out as many leading bits as are required. -/
def MeetsTarget (recordId nonce : PyStr) (requiredBits : ℤ) : Prop :=
  ofBytesBE (sha256 (relayPowMessage (octets recordId) (octets nonce))) <
    2 ^ (256 - requiredBits.toNat)

theorem encodeAscii_ok {s : PyStr} (h : ∀ c ∈ s, c.val < 128) : encodeAscii s = .ok (octets s) := by
  have hall : s.all (·.val < 128) = true :=
    List.all_eq_true.mpr fun c hc => decide_eq_true (h c hc)
  rw [encodeAscii, require, if_pos hall]
  rfl

theorem IsHexId.ascii (h : IsHexId recordId) : ∀ c ∈ recordId, c.val < 128 := by
  intro c hc
  have hd := h.2 c hc
  simp only [digitValue] at hd
  split_ifs at hd
  all_goals first | omega | exact absurd rfl hd

theorem IsNonce.ascii (h : IsNonce nonce) : ∀ c ∈ nonce, c.val < 128 := fun c hc => by
  have hd := h.2.2 c hc
  omega

theorem accepted_iff : (nonce ≠ [] ∧ nonce.length ≤ 64 ∧ isDigitText nonce) ↔
    IsNonce nonce ∨ Foreign nonce := by
  constructor
  · rintro ⟨hne, hlength, hdigits⟩
    by_cases hascii : ∀ c ∈ nonce, c.val < 128
    · refine Or.inl ⟨hne, hlength, fun c hc => ?_⟩
      have hc' := (isDigitText_iff.mp hdigits).2 c hc
      rwa [isDigitChar_ascii (hascii c hc), decide_eq_true_iff] at hc'
    · push Not at hascii
      exact Or.inr ⟨hlength, hdigits, hascii⟩
  · rintro (h | h)
    · refine ⟨h.1, h.2.1, isDigitText_iff.mpr ⟨h.1, fun c hc => ?_⟩⟩
      rw [isDigitChar_ascii (h.ascii c hc), decide_eq_true_iff]
      exact h.2.2 c hc
    · exact ⟨(isDigitText_iff.mp h.2.1).1, h.1, h.2.1⟩

theorem IsNonce.not_foreign (h : IsNonce nonce) : ¬Foreign nonce := by
  rintro ⟨-, -, c, hc, hlarge⟩
  exact absurd (h.ascii c hc) (Nat.not_lt.mpr hlarge)

theorem relayPowDigest_of_isNonce (hid : IsHexId recordId) (h : IsNonce nonce) :
    relayPowDigest recordId nonce =
      .ok (sha256 (relayPowMessage (octets recordId) (octets nonce))) := by
  rw [relayPowDigest, require, if_pos (accepted_iff.mpr (Or.inl h)), encodeAscii_ok hid.ascii,
    encodeAscii_ok h.ascii]
  rfl

theorem relayPowDigest_of_foreign (hid : IsHexId recordId) (h : Foreign nonce) :
    ∃ text, relayPowDigest recordId nonce = raise .unicodeEncodeError text := by
  obtain ⟨c, hc, hlarge⟩ := h.2.2
  have hforeign : ¬nonce.all (·.val < 128) = true := fun hall =>
    absurd (of_decide_eq_true (List.all_eq_true.mp hall c hc)) (Nat.not_lt.mpr hlarge)
  rw [relayPowDigest, require, if_pos (accepted_iff.mpr (Or.inr h)), encodeAscii_ok hid.ascii,
    encodeAscii, require, if_neg hforeign]
  exact ⟨_, rfl⟩

theorem relayPowDigest_of_refused (recordId : PyStr) (h : ¬(IsNonce nonce ∨ Foreign nonce)) :
    ∃ text, relayPowDigest recordId nonce = raise .policyError text := by
  rw [relayPowDigest, require, if_neg (accepted_iff.not.mpr h)]
  exact ⟨_, rfl⟩

theorem leadingZeroBits_sha256 {data : Bytes} (hb : 1 ≤ requiredBits) (hb' : requiredBits ≤ 256) :
    requiredBits ≤ leadingZeroBits (sha256 data) ↔
      ofBytesBE (sha256 data) < 2 ^ (256 - requiredBits.toNat) := by
  have hlength : 8 * (sha256 data).length = 256 := by rw [length_sha256]
  rw [← hlength, ← le_leadingZeroBits_iff (by rw [hlength]; omega)]
  omega

theorem verifyRelayPow_of_isNonce (hid : IsHexId recordId) (h : IsNonce nonce)
    (hb : 1 ≤ requiredBits) (hb' : requiredBits ≤ 256) :
    ∃ b, verifyRelayPow recordId nonce requiredBits = .ok b ∧
      (b = true ↔ MeetsTarget recordId nonce requiredBits) := by
  rw [verifyRelayPow, if_neg (by omega), relayPowDigest_of_isNonce hid h]
  refine ⟨_, rfl, ?_⟩
  rw [decide_eq_true_iff, leadingZeroBits_sha256 hb hb', MeetsTarget]

theorem verifyRelayPow_of_refused (h : ¬(IsNonce nonce ∨ Foreign nonce)) (hb : 1 ≤ requiredBits) :
    verifyRelayPow recordId nonce requiredBits = .ok false := by
  obtain ⟨text, hdigest⟩ := relayPowDigest_of_refused recordId h
  rw [verifyRelayPow, if_neg (by omega), hdigest]
  rfl

theorem verifyRelayPow_of_foreign (hid : IsHexId recordId) (h : Foreign nonce)
    (hb : 1 ≤ requiredBits) :
    ∃ text, verifyRelayPow recordId nonce requiredBits = raise .unicodeEncodeError text := by
  obtain ⟨text, hdigest⟩ := relayPowDigest_of_foreign hid h
  rw [verifyRelayPow, if_neg (by omega), hdigest]
  exact ⟨text, rfl⟩

theorem verifyRelayPow_of_mineFrom (hb : 1 ≤ requiredBits)
    {attempts n : ℕ} (h : mineFrom recordId requiredBits attempts n = .ok nonce) :
    verifyRelayPow recordId nonce requiredBits = .ok true := by
  induction attempts generalizing n with
  | zero => exact (raise_ne_ok h).elim
  | succ attempts ih =>
    rw [mineFrom, bind_ok] at h
    obtain ⟨text, -, h⟩ := h
    rw [bind_ok] at h
    obtain ⟨digest, hdigest, h⟩ := h
    split_ifs at h with henough
    · obtain rfl := Except.ok.inj h
      rw [verifyRelayPow, if_neg (by omega), hdigest]
      exact congrArg Except.ok (decide_eq_true henough)
    · exact ih h

theorem verifyRelayPow_of_mined {start : ℤ} {maxAttempts : Option ℤ}
    (hb : 1 ≤ requiredBits) (h : Mined recordId requiredBits start maxAttempts nonce) :
    verifyRelayPow recordId nonce requiredBits = .ok true := by
  have hmine : ∃ n, mineRelayPow recordId requiredBits start n = .ok nonce := by
    cases maxAttempts with
    | none => exact h
    | some n => exact ⟨n, h⟩
  obtain ⟨n, hn⟩ := hmine
  rw [mineRelayPow, if_neg (by omega)] at hn
  exact verifyRelayPow_of_mineFrom hb hn

/-- Verification returns, and exactly on the nonces that meet the target with true, if and only if
the text is not one of up to 64 digits that are not all ASCII; what mining returns is accepted. -/
theorem verifyRelayPow_iff_not_foreign (hid : IsHexId recordId) (hb : 1 ≤ requiredBits)
    (hb' : requiredBits ≤ 256) :
    (∀ nonce : PyStr, ((∃ b, verifyRelayPow recordId nonce requiredBits = .ok b) ∧
        (verifyRelayPow recordId nonce requiredBits = .ok true ↔
          IsNonce nonce ∧ MeetsTarget recordId nonce requiredBits)) ↔ ¬Foreign nonce) ∧
    ∀ start maxAttempts nonce, Mined recordId requiredBits start maxAttempts nonce →
      verifyRelayPow recordId nonce requiredBits = .ok true := by
  refine ⟨fun nonce => ?_, fun start maxAttempts nonce => verifyRelayPow_of_mined hb⟩
  by_cases hnonce : IsNonce nonce
  · obtain ⟨b, hv, hmeets⟩ := verifyRelayPow_of_isNonce hid hnonce hb hb'
    refine iff_of_true ⟨⟨b, hv⟩, ?_⟩ hnonce.not_foreign
    rw [hv, Except.ok.injEq, hmeets, and_iff_right hnonce]
  · by_cases hforeign : Foreign nonce
    · obtain ⟨text, hv⟩ := verifyRelayPow_of_foreign hid hforeign hb
      refine iff_of_false ?_ (not_not.mpr hforeign)
      rintro ⟨⟨b, hok⟩, -⟩
      exact raise_ne_ok (hv.symm.trans hok)
    · have hv := @verifyRelayPow_of_refused recordId nonce requiredBits
        (not_or.mpr ⟨hnonce, hforeign⟩) hb
      refine iff_of_true ⟨⟨false, hv⟩, ?_⟩ hforeign
      rw [hv]
      exact iff_of_false (fun h => Bool.false_ne_true (Except.ok.inj h)) fun h => hnonce h.1

def conformanceId : PyStr := "fe4fd10287faaea0736fe25fb849264527c0387bc8968786a9c19d8fa5aefeb5"

theorem isHexId_conformanceId : IsHexId conformanceId := by
  have hall : conformanceId.all (fun c => (digitValue c).isSome) = true := by decide +kernel
  refine ⟨by decide +kernel, fun c hc => ?_⟩
  exact Option.isSome_iff_ne_none.mp (List.all_eq_true.mp hall c hc)

theorem verifyRelayPow_iff_not_foreign_sample :
    (∀ nonce : PyStr, ((∃ b, verifyRelayPow conformanceId nonce 4 = .ok b) ∧
        (verifyRelayPow conformanceId nonce 4 = .ok true ↔
          IsNonce nonce ∧ MeetsTarget conformanceId nonce 4)) ↔ ¬Foreign nonce) ∧
    ∀ start maxAttempts nonce, Mined conformanceId 4 start maxAttempts nonce →
      verifyRelayPow conformanceId nonce 4 = .ok true :=
  verifyRelayPow_iff_not_foreign isHexId_conformanceId (by decide) (by decide)

/-- The superscript two is a digit that ASCII does not encode. -/
theorem superscript_nonce_raises : IsHexId conformanceId ∧
    ¬∃ b, verifyRelayPow conformanceId (some [0xB2]) 1 = .ok b := by
  refine ⟨isHexId_conformanceId, ?_⟩
  have hforeign : Foreign [0xB2] :=
    ⟨by decide, by decide +kernel, 0xB2, List.mem_singleton_self _, by decide⟩
  obtain ⟨text, hv⟩ := verifyRelayPow_of_foreign isHexId_conformanceId hforeign (le_refl 1)
  rintro ⟨b, hok⟩
  exact raise_ne_ok (hv.symm.trans hok)

end RelayWork

end HistoryAnchor

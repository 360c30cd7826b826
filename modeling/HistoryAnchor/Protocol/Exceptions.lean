import HistoryAnchor.Protocol.Records

/-! # What validation raises

A check raises exceptions of the types that its parts raise. A record makes the validator
raise something else than a `ValueError` only by a kind that no set can hold.
-/

namespace HistoryAnchor

open Python

/-- Every exception that the call may raise has a type in `P`. -/
def Raises {α : Type} (P : ExcType → Prop) (x : Py α) : Prop := ∀ e, x = .error e → P e.type

section Rules

variable {α β : Type} {P : ExcType → Prop}

theorem raises_ok {a : α} : Raises P (.ok a) := fun _ h => nomatch h

theorem raises_raise {type : ExcType} {text : PyStr} (h : P type) :
    Raises P (raise type text : Py α) := by
  rintro e ⟨⟩
  exact h

theorem raises_require {c : Prop} [Decidable c] {type : ExcType} {text : PyStr} (h : P type) :
    Raises P (require c type text) := by
  unfold require
  split_ifs
  · exact raises_ok
  · exact raises_raise h

theorem raises_bind_ok {x : Py α} {f : α → Py β} (hx : Raises P x)
    (hf : ∀ a, x = .ok a → Raises P (f a)) : Raises P (x >>= f) := by
  intro e he
  cases x with
  | ok a => exact hf a rfl e he
  | error e' =>
    obtain rfl : e' = e := Except.error.inj he
    exact hx e' rfl

theorem raises_bind {x : Py α} {f : α → Py β} (hx : Raises P x) (hf : ∀ a, Raises P (f a)) :
    Raises P (x >>= f) :=
  raises_bind_ok hx fun a _ => hf a

theorem raises_forM {xs : List α} {f : α → Py Unit} (h : ∀ x, Raises P (f x)) :
    Raises P (forM xs f) := by
  induction xs with
  | nil => exact raises_ok
  | cons x xs ih => exact raises_bind (h x) fun _ => ih

end Rules

/-- `except ValueError` catches it. -/
abbrev RaisesValueError {α : Type} (x : Py α) : Prop := Raises (·.isValueError = true) x

theorem requireDigest_raises {type : ExcType} (h : type.isValueError = true) (value : Json)
    (field : PyStr) : RaisesValueError (requireDigest type value field) := by
  unfold requireDigest
  cases value with
  | str s =>
    refine raises_bind (raises_require h) fun _ => ?_
    cases fromHex s with
    | none => exact raises_raise h
    | some raw => exact raises_bind (raises_require h) fun _ => raises_ok
  | _ => exact raises_raise h

namespace Codec

mutual

theorem validateJsonValue_raises : ∀ (v : Json) (path : PyStr) (depth : ℕ),
    RaisesValueError (validateJsonValue v path depth)
  | .null, _, _ | .str _, _, _ | .bool _, _, _ => by
    unfold validateJsonValue
    exact raises_bind (raises_require rfl) fun _ => raises_ok
  | .int n, _, _ => by
    unfold validateJsonValue
    exact raises_bind (raises_require rfl) fun _ => raises_require rfl
  | .float _, _, _ => by
    unfold validateJsonValue
    exact raises_bind (raises_require rfl) fun _ => raises_raise rfl
  | .arr xs, path, depth => by
    unfold validateJsonValue
    exact raises_bind (raises_require rfl) fun _ => validateItems_raises xs path depth 0
  | .obj kvs, path, depth => by
    unfold validateJsonValue
    exact raises_bind (raises_require rfl) fun _ => validateMembers_raises kvs path depth

theorem validateItems_raises : ∀ (xs : List Json) (path : PyStr) (depth index : ℕ),
    RaisesValueError (validateItems xs path depth index)
  | [], _, _, _ => raises_ok
  | x :: xs, path, depth, index => by
    unfold validateItems
    exact raises_bind (validateJsonValue_raises x _ _) fun _ => validateItems_raises xs _ _ _

theorem validateMembers_raises : ∀ (kvs : List (PyStr × Json)) (path : PyStr) (depth : ℕ),
    RaisesValueError (validateMembers kvs path depth)
  | [], _, _ => raises_ok
  | (k, x) :: kvs, path, depth => by
    unfold validateMembers
    exact raises_bind (validateJsonValue_raises x _ _) fun _ => validateMembers_raises kvs _ _

end

theorem canonicalJsonBytes_raises (v : Json) : RaisesValueError (canonicalJsonBytes v) := by
  refine raises_bind (validateJsonValue_raises v _ _) fun _ => ?_
  cases utf8 v.sortKeys.dump with
  | some bs => exact raises_ok
  | none => exact raises_raise rfl

end Codec

namespace Records

theorem requireText_raises (record : Json) (field : PyStr) :
    RaisesValueError (requireText record field) := by
  unfold requireText
  split
  · exact raises_require rfl
  · exact raises_raise rfl

theorem validateCreatedAt_raises (value : PyStr) : RaisesValueError (validateCreatedAt value) := by
  unfold validateCreatedAt
  split
  · exact raises_raise rfl
  · exact raises_require rfl

theorem validateTexts_raises (record : Json) : RaisesValueError (validateTexts record) := by
  refine raises_bind (raises_forM (requireText_raises record)) fun _ => ?_
  refine raises_bind (raises_require rfl) fun _ => ?_
  refine raises_bind (validateCreatedAt_raises _) fun _ => ?_
  refine raises_bind (raises_require rfl) fun _ => ?_
  refine raises_bind (raises_require rfl) fun _ => ?_
  refine raises_bind (raises_require rfl) fun _ => ?_
  refine raises_bind (raises_require rfl) fun _ => ?_
  refine raises_bind (raises_require rfl) fun _ => ?_
  refine raises_bind ?_ fun _ => raises_require rfl
  unfold Crypto.publicKeyToAuthorId
  split
  · exact raises_ok
  · exact raises_raise rfl

theorem validateTarget_raises (kind : PyStr) (target : Json) :
    RaisesValueError (validateTarget kind target) := by
  unfold validateTarget
  split_ifs
  · exact raises_bind (requireDigest_raises rfl _ _) fun _ => raises_ok
  · cases target with
    | null => exact raises_ok
    | _ => exact raises_raise rfl

theorem normalizeList_raises (value : Json) (field : PyStr) :
    RaisesValueError (normalizeList value field) := by
  cases value with
  | null | arr => exact raises_ok
  | _ => exact raises_raise rfl

theorem validateSource_raises (source : Json) : RaisesValueError (validateSource source) := by
  cases source with
  | obj fields =>
    refine raises_bind (raises_require rfl) fun _ => ?_
    refine raises_bind (raises_require rfl) fun _ => ?_
    exact raises_bind (raises_require rfl) fun _ => raises_require rfl
  | _ => exact raises_raise rfl

theorem validateEvidence_raises (item : Json) : RaisesValueError (validateEvidence item) := by
  cases item with
  | obj fields =>
    refine raises_bind (raises_require rfl) fun _ => ?_
    refine raises_bind (requireDigest_raises rfl _ _) fun _ => ?_
    refine raises_bind (raises_require rfl) fun _ => ?_
    refine raises_bind (raises_require rfl) fun _ => ?_
    exact raises_bind (raises_require rfl) fun _ => raises_require rfl
  | _ => exact raises_raise rfl

theorem validateLists_raises (record : Json) : RaisesValueError (validateLists record) := by
  refine raises_bind (normalizeList_raises _ _) fun sources => ?_
  refine raises_bind (normalizeList_raises _ _) fun evidence => ?_
  refine raises_bind (normalizeList_raises _ _) fun tags => ?_
  refine raises_bind (raises_require rfl) fun _ => ?_
  refine raises_bind (raises_require rfl) fun _ => ?_
  refine raises_bind (raises_require rfl) fun _ => ?_
  exact raises_bind (raises_forM validateSource_raises) fun _ => raises_forM validateEvidence_raises

theorem validateIdentity_raises [Ed25519] (record : Json) (verifySignature : Bool) :
    RaisesValueError (validateIdentity record verifySignature) := by
  refine raises_bind ?_ fun signature => ?_
  · cases record.getD "signature" .null with
    | str s => exact raises_bind (raises_require rfl) fun _ => raises_ok
    | _ => exact raises_raise rfl
  refine raises_bind (requireDigest_raises rfl _ _) fun recordId => ?_
  refine raises_bind ?_ fun calculated => ?_
  · exact raises_bind (Codec.canonicalJsonBytes_raises _) fun _ => raises_ok
  refine raises_bind (raises_require rfl) fun _ => ?_
  split_ifs
  · exact raises_bind (Codec.canonicalJsonBytes_raises _) fun _ => raises_require rfl
  · exact raises_ok

/-- The kind of an object that passes the checks before it is a list or a dictionary. -/
def UnhashableKind (record : Json) : Prop :=
  ∃ fields, record = .obj fields ∧ Json.hasFields fields recordFields = true ∧
    (record.getD "schema" .null).eqStr "hap.record" = true ∧
    (record.getD "version" .null).eqInt 1 = true ∧ (record.getD "kind" .null).hashable = false

theorem memberOf_of_hashable {value : Json} (names : List PyStr) (h : value.hashable = true) :
    ∃ known, memberOf value names = .ok known := by
  cases value with
  | arr | obj => cases h
  | _ => exact ⟨_, rfl⟩

theorem memberOf_of_not_hashable {value : Json} (names : List PyStr)
    (h : value.hashable = false) :
    ∃ text, memberOf value names = .error ⟨.typeError, text⟩ := by
  cases value with
  | arr | obj => exact ⟨_, rfl⟩
  | _ => cases h

theorem validateHeader_of_unhashableKind {record : Json} (h : UnhashableKind record) :
    ∃ text, validateHeader record = .error ⟨.typeError, text⟩ := by
  obtain ⟨fields, rfl, hf, hs, hv, hk⟩ := h
  obtain ⟨text, htext⟩ := memberOf_of_not_hashable allowedKinds hk
  refine ⟨text, ?_⟩
  simp only [validateHeader, require, hf, hs, hv, if_true, htext]
  rfl

theorem validateHeader_raises {record : Json} (h : ¬ UnhashableKind record) :
    RaisesValueError (validateHeader record) := by
  cases record with
  | obj fields =>
    refine raises_bind_ok (raises_require rfl) fun _ hf => ?_
    refine raises_bind_ok (raises_require rfl) fun _ hs => ?_
    refine raises_bind_ok (raises_require rfl) fun _ hv => ?_
    rw [require_ok] at hf hs hv
    have hk : ((Json.obj fields).getD "kind" .null).hashable = true := by
      by_contra hk
      exact h ⟨fields, rfl, hf, hs, hv, by simpa using hk⟩
    obtain ⟨known, hknown⟩ := memberOf_of_hashable allowedKinds hk
    refine raises_bind (hknown ▸ raises_ok) fun _ => ?_
    exact raises_bind (raises_require rfl) fun _ => raises_ok
  | _ => exact raises_raise rfl

/-- What the validator raises is a `ValueError`, unless no set can hold the kind. -/
theorem validateRecord_raises [Ed25519] {record : Json} {verifySignature : Bool}
    (h : ¬ UnhashableKind record) : RaisesValueError (validateRecord record verifySignature) := by
  refine raises_bind (validateHeader_raises h) fun kind => ?_
  refine raises_bind (validateTexts_raises record) fun _ => ?_
  refine raises_bind (validateTarget_raises kind _) fun _ => ?_
  refine raises_bind (validateLists_raises record) fun _ => ?_
  exact validateIdentity_raises record verifySignature

theorem validateRecord_of_unhashableKind [Ed25519] {record : Json} (verifySignature : Bool)
    (h : UnhashableKind record) :
    ∃ text, validateRecord record verifySignature = .error ⟨.typeError, text⟩ := by
  obtain ⟨text, htext⟩ := validateHeader_of_unhashableKind h
  exact ⟨text, by rw [validateRecord, htext]; rfl⟩

end Records

end HistoryAnchor

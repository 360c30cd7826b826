import HistoryAnchor.Python.Encoding
import HistoryAnchor.Python.Hashes

/-! # Canonical JSON

The protocol's restricted JSON: no floats, integers that every implementation
represents, a bounded depth. The canonical bytes of a value determine it up to
the order of members.
-/

namespace HistoryAnchor

open Python

inductive ExcType
  | valueError | unicodeEncodeError | typeError | attributeError | keyError | indexError
  | overflowError | integrityError | canonicalEncodingError | recordValidationError
  | batchValidationError | packageValidationError | snapshotValidationError
  | anchorValidationError | serviceError | missingDependencyError | bitcoinRPCError | requestError
  | responsibleProfileError | evidenceStoreError | survivalArchiveError | proofBundleError
  | policyError | httpException | runtimeError | operationalError
  deriving DecidableEq, Repr

/-- `issubclass(type, ValueError)`. -/
def ExcType.isValueError : ExcType → Bool
  | typeError | attributeError | keyError | indexError | overflowError | integrityError
  | bitcoinRPCError | requestError | httpException | runtimeError | operationalError => false
  | _ => true

/-- `issubclass(type, ServiceError)`. -/
def ExcType.isServiceError : ExcType → Bool
  | serviceError | missingDependencyError => true
  | _ => false

/-- A raised exception with its text. -/
structure Exc where
  type : ExcType
  text : PyStr
  deriving DecidableEq

abbrev Py := Except Exc

variable {α β : Type}

def raise (type : ExcType) (text : PyStr) : Py α := .error ⟨type, text⟩

def require (c : Prop) [Decidable c] (type : ExcType) (text : PyStr) : Py Unit :=
  if c then .ok () else raise type text

@[simp] theorem require_ok {c : Prop} [Decidable c] {type : ExcType} {text : PyStr} {u : Unit} :
    require c type text = .ok u ↔ c := by
  unfold require raise
  split_ifs with h <;> simp [h]

theorem bind_ok {x : Py α} {f : α → Py β} {b : β} :
    (x >>= f) = .ok b ↔ ∃ a, x = .ok a ∧ f a = .ok b := by
  cases x with
  | ok a => exact ⟨fun h => ⟨a, rfl, h⟩, fun ⟨_, ha, h⟩ => by cases ha; exact h⟩
  | error e => exact ⟨nofun, fun ⟨_, ha, _⟩ => by cases ha⟩

theorem exists_unit {P : Unit → Prop} : (∃ u, P u) ↔ P () :=
  ⟨fun ⟨(), h⟩ => h, fun h => ⟨(), h⟩⟩

theorem raise_ne_ok {type : ExcType} {text : PyStr} {a : α} : raise type text ≠ .ok a :=
  nofun

theorem exists_bind_ok {x : Py α} {f : α → Py β} :
    (∃ b, (x >>= f) = .ok b) ↔ ∃ a, x = .ok a ∧ ∃ b, f a = .ok b := by
  simp only [bind_ok]
  exact ⟨fun ⟨b, a, ha, hb⟩ => ⟨a, ha, b, hb⟩, fun ⟨a, ha, b, hb⟩ => ⟨b, a, ha, hb⟩⟩

theorem exists_mapM_ok {xs : List α} {f : α → Py β} :
    (∃ ys, xs.mapM f = .ok ys) ↔ ∀ x ∈ xs, ∃ y, f x = .ok y := by
  induction xs with
  | nil => exact ⟨fun _ x hx => absurd hx List.not_mem_nil, fun _ => ⟨[], rfl⟩⟩
  | cons x xs ih =>
    rw [List.mapM_cons, exists_bind_ok, List.forall_mem_cons, ← ih]
    simp only [exists_bind_ok]
    constructor
    · rintro ⟨y, hy, ys, hys, -⟩
      exact ⟨⟨y, hy⟩, ys, hys⟩
    · rintro ⟨⟨y, hy⟩, ys, hys⟩
      exact ⟨y, hy, ys, hys, _, rfl⟩

theorem mem_of_mapM_ok {xs : List α} {f : α → Py β} {ys : List β} (h : xs.mapM f = .ok ys)
    {y : β} : y ∈ ys ↔ ∃ x ∈ xs, f x = .ok y := by
  induction xs generalizing ys with
  | nil =>
    obtain rfl := Except.ok.inj h
    simp
  | cons x xs ih =>
    simp only [List.mapM_cons, bind_ok] at h
    obtain ⟨z, hz, zs, hzs, h⟩ := h
    obtain rfl := Except.ok.inj h
    rw [List.mem_cons, List.exists_mem_cons_iff, ih hzs, hz, Except.ok.injEq, eq_comm]

theorem map_of_mapM_ok {xs : List α} {f : α → Py β} {g : β → α} {ys : List β}
    (h : xs.mapM f = .ok ys) (hg : ∀ x y, f x = .ok y → g y = x) : ys.map g = xs := by
  induction xs generalizing ys with
  | nil =>
    obtain rfl := Except.ok.inj h
    rfl
  | cons x xs ih =>
    simp only [List.mapM_cons, bind_ok] at h
    obtain ⟨z, hz, zs, hzs, h⟩ := h
    obtain rfl := Except.ok.inj h
    rw [List.map_cons, hg x z hz, ih hzs]

theorem forM_ok {xs : List α} {f : α → Py Unit} {u : Unit} :
    forM xs f = .ok u ↔ ∀ x ∈ xs, f x = .ok () := by
  induction xs with
  | nil => exact ⟨fun _ x hx => absurd hx List.not_mem_nil, fun _ => rfl⟩
  | cons x xs ih =>
    rw [List.forM_cons, bind_ok]
    simp only [ih, List.mem_cons, forall_eq_or_imp]
    exact ⟨fun ⟨_, hx, h⟩ => ⟨hx, h⟩, fun ⟨hx, h⟩ => ⟨_, hx, h⟩⟩

/-- A loop that collects the keys of the items it accepts, where no key may repeat. -/
theorem foldlM_distinct_iff {κ : Type} [DecidableEq κ] {f : List κ → α → Py (List κ)} {key : α → κ}
    {P : α → Prop} (hf : ∀ ks x ks', f ks x = .ok ks' ↔ P x ∧ key x ∉ ks ∧ ks ++ [key x] = ks')
    {xs : List α} {ks ks' : List κ} (hks : ks.Nodup) :
    xs.foldlM f ks = .ok ks' ↔
      (∀ x ∈ xs, P x) ∧ ks'.Nodup ∧ ks' = ks ++ xs.map key := by
  induction xs generalizing ks with
  | nil =>
    rw [List.foldlM_nil, List.map_nil, List.append_nil]
    constructor
    · intro h
      obtain rfl := Except.ok.inj h
      exact ⟨fun _ h => absurd h List.not_mem_nil, hks, rfl⟩
    · rintro ⟨-, -, rfl⟩
      rfl
  | cons x xs ih =>
    simp only [List.foldlM_cons, bind_ok, hf, List.forall_mem_cons, List.map_cons]
    have hcons : key x ∉ ks → (ks ++ [key x]).Nodup := by
      intro hx
      apply List.nodup_append.mpr
      simp only [List.mem_singleton, forall_eq]
      exact ⟨hks, List.nodup_singleton _, fun a ha he => hx (he ▸ ha)⟩
    constructor
    · rintro ⟨_, ⟨hP, hx, rfl⟩, h⟩
      obtain ⟨hall, hn, rfl⟩ := (ih (hcons hx)).mp h
      exact ⟨⟨hP, hall⟩, hn, (List.append_cons ks (key x) _).symm⟩
    · rintro ⟨⟨hP, hall⟩, hn, rfl⟩
      have hx : key x ∉ ks := fun hm =>
        (List.nodup_append.mp hn).2.2 _ hm _ List.mem_cons_self rfl
      exact ⟨_, ⟨hP, hx, rfl⟩,
        (ih (hcons hx)).mpr ⟨hall, hn, List.append_cons ks (key x) _⟩⟩

/-- Raise another exception in place of any one raised. -/
def rethrow (x : Py α) (f : Exc → Exc) : Py α :=
  match x with
  | .ok a => .ok a
  | .error e => .error (f e)

@[simp] theorem rethrow_ok {x : Py α} {f : Exc → Exc} {a : α} :
    rethrow x f = .ok a ↔ x = .ok a := by
  cases x <;> simp [rethrow]

namespace Codec

/-- The largest integer that all common JSON implementations represent exactly. -/
def maxSafeJsonInteger : ℤ := 9007199254740991

mutual

def validateJsonValue : Json → PyStr → ℕ → Py Unit
  | value, path, depth => do
    require (depth ≤ 32) .canonicalEncodingError
      ("JSON nesting exceeds the protocol limit at " ++ path)
    match value with
    | .null | .str _ | .bool _ => return ()
    | .int n =>
      require (-maxSafeJsonInteger ≤ n ∧ n ≤ maxSafeJsonInteger) .canonicalEncodingError
        ("integer exceeds the protocol JSON-safe range at " ++ path)
    | .float _ => raise .canonicalEncodingError ("floating-point values are forbidden at " ++ path)
    | .arr xs => validateItems xs path depth 0
    | .obj kvs => validateMembers kvs path depth

def validateItems : List Json → PyStr → ℕ → ℕ → Py Unit
  | [], _, _, _ => return ()
  | x :: xs, path, depth, index => do
    validateJsonValue x (path ++ "[" ++ decimal index ++ "]") (depth + 1)
    validateItems xs path depth (index + 1)

def validateMembers : List (PyStr × Json) → PyStr → ℕ → Py Unit
  | [], _, _ => return ()
  | (k, x) :: kvs, path, depth => do
    validateJsonValue x (path ++ "." ++ k) (depth + 1)
    validateMembers kvs path depth

end

def canonicalJsonBytes (value : Json) : Py Bytes := do
  validateJsonValue value "$" 0
  match utf8 value.sortKeys.dump with
  | some bs => return bs
  | none => raise .unicodeEncodeError "'utf-8' codec can't encode: surrogates not allowed"

def sha256Hex (data : Bytes) : PyStr := hex (sha256 data)

mutual

theorem exact_of_validate : ∀ (v : Json) {path : PyStr} {depth : ℕ},
    validateJsonValue v path depth = .ok () → v.Exact
  | .null, _, _, _ | .str _, _, _, _ | .bool _, _, _, _ | .int _, _, _, _ => trivial
  | .float _, _, _, h => by
    simp only [validateJsonValue, bind_ok, require_ok, exists_unit] at h
    exact (raise_ne_ok h.2).elim
  | .arr xs, _, _, h => by
    simp only [validateJsonValue, bind_ok, require_ok, exists_unit] at h
    exact exact_of_validateItems xs h.2
  | .obj kvs, _, _, h => by
    simp only [validateJsonValue, bind_ok, require_ok, exists_unit] at h
    exact exact_of_validateMembers kvs h.2

theorem exact_of_validateItems : ∀ (xs : List Json) {path : PyStr} {depth index : ℕ},
    validateItems xs path depth index = .ok () → Json.ExactList xs
  | [], _, _, _, _ => trivial
  | x :: xs, _, _, _, h => by
    simp only [validateItems, bind_ok, exists_unit] at h
    obtain ⟨hx, hxs⟩ := h
    exact ⟨exact_of_validate x hx, exact_of_validateItems xs hxs⟩

theorem exact_of_validateMembers : ∀ (kvs : List (PyStr × Json)) {path : PyStr} {depth : ℕ},
    validateMembers kvs path depth = .ok () → Json.ExactMembers kvs
  | [], _, _, _ => trivial
  | (_, x) :: kvs, _, _, h => by
    simp only [validateMembers, bind_ok, exists_unit] at h
    obtain ⟨hx, hxs⟩ := h
    exact ⟨exact_of_validate x hx, exact_of_validateMembers kvs hxs⟩

end

theorem canonicalJsonBytes_ok {v : Json} {b : Bytes} (h : canonicalJsonBytes v = .ok b) :
    v.Exact ∧ utf8 v.sortKeys.dump = some b := by
  simp only [canonicalJsonBytes, bind_ok, exists_unit] at h
  obtain ⟨hv, h⟩ := h
  refine ⟨exact_of_validate v hv, ?_⟩
  cases hu : utf8 v.sortKeys.dump with
  | none => simp only [hu] at h; exact (raise_ne_ok h).elim
  | some bs => simp only [hu] at h; cases h; rfl

theorem canonicalJsonBytes_inj {v w : Json} {b : Bytes} (hv : canonicalJsonBytes v = .ok b)
    (hw : canonicalJsonBytes w = .ok b) : v.sortKeys = w.sortKeys := by
  obtain ⟨ev, bv⟩ := canonicalJsonBytes_ok hv
  obtain ⟨ew, bw⟩ := canonicalJsonBytes_ok hw
  exact Json.dump_injective (Json.exact_sortKeys v ev) (Json.exact_sortKeys w ew)
    (utf8_injective bv bw)

end Codec

end HistoryAnchor

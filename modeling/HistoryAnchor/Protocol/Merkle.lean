import HistoryAnchor.Protocol.Codec
import HistoryAnchor.Trees.Merkle

/-! # Merkle roots and proofs

The loops of the source over the levels of the tree, and their reading as the
tree of the library: the root is the one node of the top level, a proof is the
path from a leaf, and verification climbs it.
-/

namespace HistoryAnchor

open Python

namespace Merkle

/-- `sha256(left + right)`. -/
def parent (p : Bytes × Bytes) : Bytes := sha256 (p.1 ++ p.2)

def leaf (recordId : PyStr) : Py Bytes :=
  match fromHex recordId with
  | none => raise .valueError "non-hexadecimal number found in fromhex() arg"
  | some raw => do
    require (raw.length = 32) .valueError "record_id must be a 32-byte hex digest"
    return raw

/-- `while len(level) > 1`; a level is at most half as long as the one below, rounded up. -/
def reduceLevels : ℕ → List Bytes → List Bytes
  | 0, level => level
  | fuel + 1, level =>
    if 1 < level.length then reduceLevels fuel (MerkleTree.parents parent level) else level

def merkleRoot (recordIds : List PyStr) : Py PyStr := do
  if recordIds = [] then return hex (List.replicate 32 0)
  let level ← recordIds.mapM leaf
  return hex ((reduceLevels level.length level).headD [])

/-- The loop of `merkle_proof`: the step to the sibling, then the next level up. -/
def proofSteps : ℕ → List Bytes → ℕ → List (MerkleTree.Step Bytes)
  | 0, _, _ => []
  | fuel + 1, level, position =>
    if 1 < level.length then
      (MerkleTree.siblingStep (MerkleTree.pad level) position).toList ++
        proofSteps fuel (MerkleTree.parents parent level) (position / 2)
    else []

def sideName : MerkleTree.Side → PyStr
  | .left => "left"
  | .right => "right"

def stepAsDict (s : MerkleTree.Step Bytes) : Json :=
  .obj [("sibling", .str (hex s.sibling)), ("side", .str (sideName s.side))]

def merkleProof (recordIds : List PyStr) (index : ℕ) : Py (List Json) := do
  require (index < recordIds.length) .indexError "record index out of range"
  let level ← recordIds.mapM leaf
  return (proofSteps level.length level index).map stepAsDict

/-- What iterating over a JSON value yields; `none` is the `TypeError` of a value that has no
iterator. -/
def iterate : Json → Option (List Json)
  | .arr xs => some xs
  | .str s => some (s.map fun c => .str [c])
  | .obj kvs => some (kvs.map fun kv => .str kv.1)
  | _ => none

/-- One step of a proof; `none` stands for every way in which the verifier answers `False`. -/
def readStep (step : Json) : Option (MerkleTree.Step Bytes) :=
  match step.get "sibling", step.get "side" with
  | some (.str sibling), some (.str side) => do
    let raw ← fromHex sibling
    if raw.length ≠ 32 then none
    if side = "left" then return ⟨raw, .left⟩
    if side = "right" then return ⟨raw, .right⟩
    none
  | _, _ => none

def verifyMerkleProof (recordId proof : Json) (expectedRoot : PyStr) : Bool :=
  match recordId, iterate proof with
  | .str s, some steps =>
    match leaf s with
    | .error _ => false
    | .ok value =>
      match steps.foldlM (fun v step => (readStep step).map fun s => parent (s.pair v)) value with
      | some root => hex root = expectedRoot
      | none => false
  | _, _ => false

theorem leaf_ok {s : PyStr} {raw : Bytes} :
    leaf s = .ok raw ↔ fromHex s = some raw ∧ raw.length = 32 := by
  unfold leaf
  cases fromHex s with
  | none => exact ⟨fun h => (raise_ne_ok h).elim, fun h => nomatch h.1⟩
  | some r =>
    simp only [bind_ok, require_ok, exists_unit, Option.some.injEq]
    constructor
    · rintro ⟨hl, h⟩
      obtain rfl := Except.ok.inj h
      exact ⟨rfl, hl⟩
    · rintro ⟨rfl, hl⟩
      exact ⟨hl, rfl⟩

theorem reduceLevels_eq (fuel : ℕ) (l : List Bytes) (h : MerkleTree.height l ≤ fuel) :
    reduceLevels fuel l = MerkleTree.level parent l (MerkleTree.height l) := by
  induction fuel generalizing l with
  | zero =>
    rw [Nat.le_zero.mp h]
    rfl
  | succ fuel ih =>
    rw [reduceLevels]
    split_ifs with hl
    · have hp := MerkleTree.height_parents (H := parent) hl
      rw [ih _ (by omega), ← hp, MerkleTree.level_succ']
    · rw [MerkleTree.height_eq_zero.mpr (Nat.le_of_not_lt hl)]
      rfl

theorem height_le_length (l : List Bytes) : MerkleTree.height l ≤ l.length :=
  Nat.clog_le_of_le_pow Nat.lt_two_pow_self.le

theorem pathFrom_proofSteps (fuel : ℕ) {l : List Bytes} {i : ℕ} (hi : i < l.length)
    (h : MerkleTree.height l ≤ fuel) :
    MerkleTree.pathFrom parent (MerkleTree.height l) l i = some (proofSteps fuel l i) := by
  induction fuel generalizing l i with
  | zero =>
    rw [Nat.le_zero.mp h]
    rfl
  | succ fuel ih =>
    rw [proofSteps]
    split_ifs with hl
    · have hp := MerkleTree.height_parents (H := parent) hl
      obtain ⟨s, hs, -⟩ := MerkleTree.siblingStep_pair (List.getElem?_eq_getElem hi)
      have hi' : i / 2 < (MerkleTree.parents parent l).length := by
        rw [MerkleTree.length_parents]
        omega
      rw [← hp, MerkleTree.pathFrom, hs, ih hi' (by omega)]
      rfl
    · rw [MerkleTree.height_eq_zero.mpr (Nat.le_of_not_lt hl)]
      rfl

theorem merkleRoot_ok {ids : List PyStr} {root : PyStr} (hne : ids ≠ [])
    (h : merkleRoot ids = .ok root) :
    ∃ leaves, ids.mapM leaf = .ok leaves ∧ ∃ top,
      MerkleTree.level parent leaves (MerkleTree.height leaves) = [top] ∧ root = hex top := by
  simp only [merkleRoot, if_neg hne, bind_ok] at h
  obtain ⟨leaves, hl, h⟩ := h
  refine ⟨leaves, hl, ?_⟩
  rw [reduceLevels_eq _ _ (height_le_length leaves)] at h
  have hlen : leaves.length = ids.length := by
    clear h hne
    induction ids generalizing leaves with
    | nil => obtain rfl := Except.ok.inj hl; rfl
    | cons s ids ih =>
      rw [List.mapM_cons, bind_ok] at hl
      obtain ⟨v, -, hl⟩ := hl
      rw [bind_ok] at hl
      obtain ⟨vs, hvs, hl⟩ := hl
      obtain rfl := Except.ok.inj hl
      rw [List.length_cons, List.length_cons, ih vs hvs]
  have hleaves : leaves ≠ [] := by
    rintro rfl
    exact hne (List.length_eq_zero_iff.mp hlen.symm)
  obtain ⟨top, htop⟩ := List.length_eq_one_iff.mp
    (MerkleTree.length_level_height (H := parent) leaves hleaves)
  rw [htop] at h
  exact ⟨top, htop, (Except.ok.inj h).symm⟩

end Merkle

end HistoryAnchor

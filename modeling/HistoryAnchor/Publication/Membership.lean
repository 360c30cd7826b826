import HistoryAnchor.Protocol.Bundles
import HistoryAnchor.Publication.Proofs

/-! # Completeness of membership proofs

The loop that builds a proof takes the path of the tree from the leaf to the root,
whatever the length of the listing, so that the proof of every listed record is
accepted. A path has one step a level.
-/

namespace HistoryAnchor

open Python MerkleTree Merkle

theorem isDigest_of_digits {s : PyStr} (hl : s.length = 64) (hd : ∀ c ∈ s, digitValue c ≠ none) :
    ∃ raw, IsDigest s raw := by
  obtain ⟨raw, hraw, hlen⟩ := exists_fromHex (n := 32) hl hd
  exact ⟨raw, hl, hraw, hlen⟩

namespace ProofBundles

theorem validateStep_stepAsDict {s : Step Bytes} (h : s.sibling.length = 32) :
    validateStep (stepAsDict s) = .ok () := by
  obtain ⟨sibling, side⟩ := s
  have hsibling : (stepAsDict ⟨sibling, side⟩).getD "sibling" .null = .str (hex sibling) := rfl
  have hside : (stepAsDict ⟨sibling, side⟩).getD "side" .null = .str (sideName side) := rfl
  have hdigest : IsDigest (hex sibling) sibling :=
    ⟨by rw [length_hex, h], fromHex_hex sibling, h⟩
  have hknown : memberOf (.str (sideName side)) ["left", "right"] = .ok true := by
    cases side <;> rfl
  have hfields : stepAsDict ⟨sibling, side⟩ =
      .obj [("sibling", .str (hex sibling)), ("side", .str (sideName side))] := rfl
  simp only [hfields, validateStep] at hsibling hside ⊢
  simp only [bind_ok, require_ok, exists_unit, hsibling, hside, validateDigest_ok, hknown]
  exact ⟨rfl, ⟨_, _, rfl, hdigest⟩, true, rfl, rfl⟩

theorem validatePath_stepsAsDict {steps : List (Step Bytes)} (hlen : steps.length ≤ 64)
    (h : ∀ s ∈ steps, s.sibling.length = 32) :
    validatePath (.arr (steps.map stepAsDict)) = .ok () := by
  simp only [validatePath, bind_ok, require_ok, exists_unit, forM_ok, List.length_map]
  refine ⟨hlen, fun x hx => ?_⟩
  obtain ⟨s, hs, rfl⟩ := List.mem_map.mp hx
  exact validateStep_stepAsDict (h s hs)

end ProofBundles

namespace Merkle

variable {ids : List PyStr} {i : ℕ}

theorem exists_leaves (hids : ∀ s ∈ ids, ∃ raw, IsDigest s raw) :
    ∃ leaves, ids.mapM leaf = .ok leaves ∧ leaves.length = ids.length ∧
      (∀ a ∈ leaves, a.length = 32) ∧
      ∀ i (hi : i < ids.length), ∃ a, leaves[i]? = some a ∧ leaf ids[i] = .ok a := by
  have hleaf : ∀ s ∈ ids, leaf s = .ok ((fromHex s).getD []) := by
    intro s hs
    obtain ⟨raw, -, hraw, hlen⟩ := hids s hs
    rw [hraw]
    exact leaf_ok.mpr ⟨hraw, hlen⟩
  refine ⟨ids.map fun s => (fromHex s).getD [], mapM_leaf hids, List.length_map _, ?_, ?_⟩
  · intro a ha
    obtain ⟨s, hs, rfl⟩ := List.mem_map.mp ha
    exact (leaf_ok.mp (hleaf s hs)).2
  · intro i hi
    refine ⟨(fromHex ids[i]).getD [], ?_, hleaf _ (List.getElem_mem hi)⟩
    rw [List.getElem?_map, List.getElem?_eq_getElem hi]
    rfl

theorem exists_merkleProof (hids : ∀ s ∈ ids, ∃ raw, IsDigest s raw) (hi : i < ids.length) :
    ∃ steps root, merkleProof ids i = .ok (steps.map stepAsDict) ∧ merkleRoot ids = .ok root ∧
      steps.length = Nat.clog 2 ids.length ∧ (∀ s ∈ steps, s.sibling.length = 32) ∧
      ∃ a, leaf ids[i] = .ok a ∧ hex (climb parent a steps) = root := by
  obtain ⟨leaves, hleaves, hlen, hdigests, hat⟩ := exists_leaves hids
  obtain ⟨a, ha, hleaf⟩ := hat i hi
  have hne : leaves ≠ [] := by
    rintro rfl
    simp at ha
  obtain ⟨path, hpath, hsteps, hclimb, -⟩ := climb_pathFrom (H := parent) (n := height leaves) ha
  obtain rfl : proofSteps leaves.length leaves i = path := by
    have h := pathFrom_proofSteps leaves.length (by omega : i < leaves.length)
      (height_le_length leaves)
    exact Option.some.inj (h.symm.trans hpath)
  obtain ⟨top, htop⟩ := List.length_eq_one_iff.mp (length_level_height (H := parent) leaves hne)
  have hroot : merkleRoot ids = .ok (hex top) := by
    have hids' : ids ≠ [] := by
      rintro rfl
      exact absurd hi (Nat.not_lt_zero i)
    simp only [merkleRoot, if_neg hids', bind_ok]
    refine ⟨leaves, hleaves, ?_⟩
    rw [reduceLevels_eq _ _ (height_le_length leaves), htop]
    rfl
  have htop' : climb parent a (proofSteps leaves.length leaves i) = top := by
    rw [htop] at hclimb
    exact List.mem_singleton.mp (List.mem_of_getElem? hclimb)
  refine ⟨proofSteps leaves.length leaves i, hex top, ?_, hroot, ?_, ?_, a, hleaf, ?_⟩
  · simp only [merkleProof, bind_ok, require_ok, exists_unit]
    exact ⟨hi, leaves, hleaves, rfl⟩
  · rw [hsteps, height, hlen]
  · exact length_of_mem_pathFrom hpath hdigests
  · rw [htop']

/-- Every listed identifier has a proof, with one step a level, that the verifier accepts; the
proofs of a batch have the shape that bundles require. -/
theorem merkle_proof_complete (ids : List PyStr) (i : ℕ) (hi : i < ids.length)
    (hids : ∀ s ∈ ids, s.length = 64 ∧ ∀ c ∈ s, digitValue c ≠ none) :
    ∃ proof root, merkleProof ids i = .ok proof ∧ merkleRoot ids = .ok root ∧
      verifyMerkleProof (.str ids[i]) (.arr proof) root = true ∧
      proof.length = Nat.clog 2 ids.length ∧
      (ids.length ≤ 50000 → ProofBundles.validatePath (.arr proof) = .ok () ∧
        ∀ step ∈ proof, ProofBundles.validateStep step = .ok ()) := by
  have hdigests : ∀ s ∈ ids, ∃ raw, IsDigest s raw := fun s hs =>
    isDigest_of_digits (hids s hs).1 (hids s hs).2
  obtain ⟨steps, root, hproof, hroot, hlen, h32, a, ha, hclimb⟩ := exists_merkleProof hdigests hi
  refine ⟨steps.map stepAsDict, root, hproof, hroot, ?_, ?_, fun hle => ⟨?_, ?_⟩⟩
  · exact verifyMerkleProof_iff.mpr ⟨a, steps, ha, readPath_stepsAsDict h32, hclimb⟩
  · rw [List.length_map, hlen]
  · apply ProofBundles.validatePath_stepsAsDict _ h32
    have h16 : Nat.clog 2 ids.length ≤ 16 := Nat.clog_le_of_le_pow (by omega)
    omega
  · intro x hx
    obtain ⟨s, hs, rfl⟩ := List.mem_map.mp hx
    exact ProofBundles.validateStep_stepAsDict (h32 s hs)

/-- Three identifiers, of which the last stands at the end of an odd level. -/
theorem merkle_proof_complete_three :
    ∃ proof root,
      merkleProof (List.replicate 3 (List.replicate 64 0x61)) 2 = .ok proof ∧
      merkleRoot (List.replicate 3 (List.replicate 64 0x61)) = .ok root ∧
      verifyMerkleProof (.str (List.replicate 64 0x61)) (.arr proof) root = true ∧
      proof.length = Nat.clog 2 3 ∧
      (3 ≤ 50000 → ProofBundles.validatePath (.arr proof) = .ok () ∧
        ∀ step ∈ proof, ProofBundles.validateStep step = .ok ()) := by
  apply merkle_proof_complete (List.replicate 3 (List.replicate 64 0x61)) 2 (by decide)
  intro s hs
  obtain rfl := List.eq_of_mem_replicate hs
  refine ⟨by decide, fun c hc => ?_⟩
  obtain rfl := List.eq_of_mem_replicate hc
  decide

end Merkle

end HistoryAnchor

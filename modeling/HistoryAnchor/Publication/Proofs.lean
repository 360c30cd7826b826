import HistoryAnchor.Node.Reached
import Mathlib.Data.List.ReduceOption

/-! # Proofs of membership

`verify_package` accepts a record, a batch and a path from one to the root of the
other. Leaves and inner nodes are hashed alike and a path may be of any length,
so that an accepted path shows only that a chain of hashes leads from the record
to an identifier in the listing.
-/

namespace HistoryAnchor

open Python MerkleTree

namespace Service

/-- The checks of `verify_package`; a check that was not made is `none`. -/
structure Checks where
  recordSignature : Bool
  recordId : Bool
  recordError : Option PyStr
  batchManifest : Option Bool
  merkleMembership : Option Bool
  anchorPayload : Option Bool
  proofError : Option PyStr

/-- `all(boolean_checks)`. -/
def Checks.validStructure (c : Checks) : Bool :=
  [some c.recordSignature, some c.recordId, c.batchManifest, c.merkleMembership,
    c.anchorPayload].reduceOption.all id

/-- Whether the path leads to the root, and whether the payload names the batch. -/
def checkProof (record proof batch : Json) : Py (Bool × Bool) := do
  require (batch matches .obj _) .batchValidationError "proof batch is required"
  Batches.validateBatch batch
  require (record matches .obj _) .attributeError "object has no attribute 'get'"
  let membership := Merkle.verifyMerkleProof (record.getD "record_id" (.str []))
    (proof.getD "path" (.arr [])) (batch.text "merkle_root")
  let payload ← Bitcoin.decodeAnchorPayload (batch.text "payload_hex")
  return (membership, payload.manifestHash = batch.text "batch_id")

variable [Ed25519]

/-- Only a `RecordValidationError` is a failed check; anything else is raised. -/
def checkRecord (record : Json) : Py (Bool × Bool × Option PyStr) :=
  match Records.validateRecord record true with
  | .ok () => do
    let calculated ← Records.calculateRecordId record
    return (true, calculated = record.text "record_id", none)
  | .error e =>
    if e.type = .recordValidationError then .ok (false, false, some e.text) else .error e

def verifyPackage (record : Json) (proof : Option Json) : Py Checks := do
  let (signature, identity, recordError) ← checkRecord record
  match proof with
  | none => return ⟨signature, identity, recordError, none, none, none, none⟩
  | some proof =>
    require (proof matches .obj _) .attributeError "object has no attribute 'get'"
    match checkProof record proof (proof.getD "batch" .null) with
    | .ok (membership, payload) =>
      return ⟨signature, identity, recordError, some true, some membership, some payload, none⟩
    | .error e =>
      return ⟨signature, identity, recordError, some false, some false, some false, some e.text⟩

end Service

namespace Merkle

def readPath (path : Json) : Option (List (Step Bytes)) := do
  let steps ← iterate path
  steps.mapM readStep

def pathBytes (v : Bytes) (steps : List (Step Bytes)) : Set Bytes :=
  (fun p => p.1 ++ p.2) '' pathPairs parent v steps

def treeBytes (leaves : List Bytes) : Set Bytes :=
  (fun p => p.1 ++ p.2) '' treePairs parent leaves

variable {S : Set Bytes} {v : Bytes} {steps : List (Step Bytes)} {leaves : List Bytes}

theorem foldlM_readStep (path : List Json) (v : Bytes) :
    path.foldlM (fun v step => (readStep step).map fun s => parent (s.pair v)) v =
      (path.mapM readStep).map (climb parent v) := by
  induction path generalizing v with
  | nil => rfl
  | cons x path ih =>
    rw [List.foldlM_cons, List.mapM_cons]
    cases readStep x with
    | none => rfl
    | some s =>
      simp only [Option.map_some, Option.bind_eq_bind, Option.bind_some, ih]
      cases path.mapM readStep <;> rfl

theorem verifyMerkleProof_iff {s root : PyStr} {path : Json} :
    verifyMerkleProof (.str s) path root = true ↔ ∃ v steps, leaf s = .ok v ∧
      readPath path = some steps ∧ hex (climb parent v steps) = root := by
  unfold verifyMerkleProof readPath
  cases iterate path with
  | none => simp
  | some xs =>
    cases hl : leaf s with
    | error e => simp [hl]
    | ok v =>
      simp only [hl, foldlM_readStep, Option.bind_eq_bind, Option.bind_some]
      cases hx : xs.mapM readStep with
      | none => simp
      | some steps => simp

theorem length_of_readStep {x : Json} {s : Step Bytes} (h : readStep x = some s) :
    s.sibling.length = 32 := by
  unfold readStep at h
  split at h
  · rename_i sibling side _ _
    cases hraw : fromHex sibling with
    | none => simp [hraw] at h
    | some raw =>
      simp only [hraw, Option.bind_eq_bind, Option.bind_some] at h
      by_cases hlen : raw.length = 32
      · simp only [hlen, ne_eq, not_true_eq_false, if_false] at h
        split_ifs at h <;> (cases h; exact hlen)
      · simp [hlen] at h
  · cases h

theorem readStep_stepAsDict {s : Step Bytes} (h : s.sibling.length = 32) :
    readStep (stepAsDict s) = some s := by
  obtain ⟨sibling, side⟩ := s
  have hs : (stepAsDict ⟨sibling, side⟩).get "sibling" = some (.str (hex sibling)) := rfl
  have hd : (stepAsDict ⟨sibling, side⟩).get "side" = some (.str (sideName side)) := rfl
  simp only [readStep, hs, hd, fromHex_hex, Option.bind_eq_bind, Option.bind_some]
  rw [if_neg (not_not.mpr h)]
  cases side <;> rfl

theorem readPath_stepsAsDict (h : ∀ s ∈ steps, s.sibling.length = 32) :
    readPath (.arr (steps.map stepAsDict)) = some steps := by
  change (steps.map stepAsDict).mapM readStep = some steps
  induction steps with
  | nil => rfl
  | cons s steps ih =>
    simp only [List.mem_cons, forall_eq_or_imp] at h
    rw [List.map_cons, List.mapM_cons, readStep_stepAsDict h.1, ih h.2]
    rfl

theorem length_of_readPath {path : Json} (h : readPath path = some steps) :
    ∀ s ∈ steps, s.sibling.length = 32 := by
  unfold readPath at h
  cases hx : iterate path with
  | none => simp [hx] at h
  | some xs =>
    simp only [hx, Option.bind_eq_bind, Option.bind_some] at h
    clear hx
    induction xs generalizing steps with
    | nil =>
      obtain rfl : [] = steps := Option.some.inj h
      simp
    | cons x xs ih =>
      rw [List.mapM_cons] at h
      cases hs : readStep x with
      | none => simp [hs] at h
      | some s =>
        cases hr : xs.mapM readStep with
        | none => simp [hs, hr] at h
        | some rest =>
          simp only [hs, hr, Option.bind_eq_bind, Option.bind_some] at h
          obtain rfl : s :: rest = steps := Option.some.inj h
          simpa only [List.mem_cons, forall_eq_or_imp] using ⟨length_of_readStep hs, ih hr⟩

/-- The node hash is injective on pairs of digests whose concatenations do not collide. -/
theorem injOn_parent (hS : Set.InjOn sha256 S) :
    Set.InjOn parent {p : Bytes × Bytes | p.1.length = 32 ∧ p.1 ++ p.2 ∈ S} := by
  rintro ⟨a, b⟩ ⟨ha, hm⟩ ⟨a', b'⟩ ⟨ha', hm'⟩ he
  obtain ⟨rfl, rfl⟩ := List.append_inj (hS hm hm' he) (ha.trans ha'.symm)
  rfl

theorem length_of_mem_level (h : ∀ a ∈ leaves, a.length = 32) (n : ℕ) :
    ∀ a ∈ level parent leaves n, a.length = 32 := by
  cases n with
  | zero => exact h
  | succ n =>
    intro a ha
    obtain ⟨p, -, rfl⟩ := List.mem_map.mp ha
    exact length_sha256 _

theorem length_of_mem_pathPairs (hv : v.length = 32) (h : ∀ s ∈ steps, s.sibling.length = 32) :
    ∀ p ∈ pathPairs parent v steps, p.1.length = 32 ∧ p.2.length = 32 := by
  induction steps generalizing v with
  | nil => simp [pathPairs]
  | cons s steps ih =>
    simp only [List.mem_cons, forall_eq_or_imp] at h
    rintro p (rfl | hp)
    · obtain ⟨sibling, side⟩ := s
      cases side
      · exact ⟨h.1, hv⟩
      · exact ⟨hv, h.1⟩
    · exact ih (length_sha256 _) h.2 p hp

theorem exists_leaf_of_climb (hS : Set.InjOn sha256 S) (hleaves : ∀ a ∈ leaves, a.length = 32)
    (htree : treeBytes leaves ⊆ S) (hv : v.length = 32)
    (hsteps : ∀ s ∈ steps, s.sibling.length = 32) (hpath : pathBytes v steps ⊆ S)
    (htop : climb parent v steps ∈ level parent leaves (height leaves)) :
    (∃ below, (∀ s ∈ below, s.sibling.length = 32) ∧ pathBytes v below ⊆ S ∧
      climb parent v below ∈ leaves) ∨
        ∃ a b, a.length = 32 ∧ b.length = 32 ∧ a ++ b ∈ treeBytes leaves ∧ v = sha256 (a ++ b) := by
  have hlevel := length_of_mem_level hleaves
  have htree' : treePairs parent leaves ⊆ {p | p.1.length = 32 ∧ p.1 ++ p.2 ∈ S} := by
    rintro ⟨a, b⟩ hp
    obtain ⟨n, hn, hm⟩ := id hp
    exact ⟨hlevel n a (mem_pad.mp (mem_of_mem_pairs hm).1), htree ⟨_, hp, rfl⟩⟩
  have hpath' : ∀ u rest, u.length = 32 → (∀ s ∈ rest, s.sibling.length = 32) →
      pathPairs parent u rest ⊆ pathPairs parent v steps →
      pathPairs parent u rest ⊆ {p | p.1.length = 32 ∧ p.1 ++ p.2 ∈ S} := fun u rest hu hr hsub p hp =>
    ⟨(length_of_mem_pathPairs hu hr p hp).1, hpath ⟨p, hsub hp, rfl⟩⟩
  rcases le_or_gt steps.length (height leaves) with hle | hgt
  · -- A path no longer than the tree is high starts at a node of the tree.
    obtain ⟨j, hj⟩ := Nat.exists_eq_add_of_le' hle
    have hmem : v ∈ level parent leaves j :=
      mem_level_of_climb (injOn_parent hS) htree' (hpath' v steps hv hsteps subset_rfl) hj.ge
        (hj ▸ htop)
    cases j with
    | zero => exact Or.inl ⟨[], by simp, by simp [pathBytes, pathPairs], hmem⟩
    | succ j =>
      obtain ⟨⟨a, b⟩, hp, he⟩ := List.mem_map.mp hmem
      obtain ⟨ha, hb⟩ := mem_of_mem_pairs hp
      exact Or.inr ⟨a, b, hlevel j a (mem_pad.mp ha), hlevel j b (mem_pad.mp hb),
        ⟨(a, b), ⟨j, by omega, hp⟩, rfl⟩, he.symm⟩
  · -- The last steps of a longer path, as many as the tree is high, start at a leaf.
    set below := steps.take (steps.length - height leaves) with hbelow
    set above := steps.drop (steps.length - height leaves) with habove
    have hsplit : steps = below ++ above := (List.take_append_drop _ _).symm
    have hlen : above.length = height leaves := by
      rw [habove, List.length_drop]
      omega
    have hpairs : pathPairs parent v steps =
        pathPairs parent v below ∪ pathPairs parent (climb parent v below) above := by
      rw [← pathPairs_append, ← hsplit]
    have hbelow' : ∀ s ∈ below, s.sibling.length = 32 := fun s hs =>
      hsteps s (List.mem_of_mem_take hs)
    have hne : below ≠ [] := by
      rw [hbelow, ne_eq, List.take_eq_nil_iff]
      rintro (h | h)
      · omega
      · rw [h] at hgt
        simp at hgt
    have hclimb : (climb parent v below).length = 32 := by
      obtain ⟨init, s, hs⟩ := List.eq_nil_or_concat'  below |>.resolve_left hne
      rw [hs, climb_append]
      exact length_sha256 _
    have habove' : ∀ s ∈ above, s.sibling.length = 32 := fun s hs =>
      hsteps s (List.mem_of_mem_drop hs)
    refine Or.inl ⟨below, hbelow', ?_, ?_⟩
    · rintro m ⟨p, hp, rfl⟩
      exact hpath ⟨p, hpairs ▸ Or.inl hp, rfl⟩
    · rw [hsplit, climb_append] at htop
      refine mem_level_of_climb (j := 0) (injOn_parent hS) htree'
        (hpath' _ above hclimb habove' ?_) (by omega) ?_
      · rw [hpairs]
        exact Set.subset_union_right
      · rwa [Nat.zero_add, hlen]

theorem length_of_mem_pathFrom {n i : ℕ} (h : pathFrom parent n leaves i = some steps)
    (hl : ∀ a ∈ leaves, a.length = 32) : ∀ s ∈ steps, s.sibling.length = 32 := by
  induction n generalizing leaves i steps with
  | zero =>
    obtain rfl : [] = steps := Option.some.inj h
    simp
  | succ n ih =>
    simp only [pathFrom, Option.bind_eq_bind, Option.bind_eq_some_iff, Option.pure_def,
      Option.some.injEq] at h
    obtain ⟨s, hs, rest, hrest, rfl⟩ := h
    simp only [List.mem_cons, forall_eq_or_imp]
    constructor
    · unfold siblingStep at hs
      split_ifs at hs <;>
      · obtain ⟨b, hb, rfl⟩ := Option.map_eq_some_iff.mp hs
        exact hl b (mem_pad.mp (List.mem_of_getElem? hb))
    · apply ih hrest
      intro a ha
      obtain ⟨p, -, rfl⟩ := List.mem_map.mp ha
      exact length_sha256 _

theorem exists_climb_of_leaf (hleaves : ∀ a ∈ leaves, a.length = 32) {a : Bytes} (ha : a ∈ leaves) :
    ∃ path : List (Step Bytes), (∀ s ∈ path, s.sibling.length = 32) ∧
      pathBytes a path ⊆ treeBytes leaves ∧
      climb parent a path ∈ level parent leaves (height leaves) := by
  obtain ⟨i, hi, rfl⟩ := List.getElem_of_mem ha
  obtain ⟨path, hpath, -, hc, hsub⟩ := climb_pathFrom (H := parent) (n := height leaves)
    (List.getElem?_eq_getElem hi)
  refine ⟨path, length_of_mem_pathFrom hpath hleaves, ?_, List.mem_of_getElem? hc⟩
  rintro m ⟨p, hp, rfl⟩
  obtain ⟨k, hk, hm⟩ := hsub p hp
  exact ⟨p, ⟨k, hk, hm⟩, rfl⟩

end Merkle

section Envelope

theorem length_quote (s : PyStr) : s.length + 2 ≤ (Json.quote s).length := by
  have hescape : ∀ c, 1 ≤ (Json.escape c).length := by
    intro c
    unfold Json.escape
    cases Json.shortEscapes.lookup c with
    | some e => simp
    | none => dsimp only; split_ifs <;> simp
  have hflat : s.length ≤ (s.flatMap Json.escape).length := by
    induction s with
    | nil => exact le_rfl
    | cons c s ih =>
      have := hescape c
      simp only [List.flatMap_cons, List.length_append, List.length_cons]
      omega
  simp only [Json.quote, List.length_append, List.length_cons, List.length_nil]
  omega

theorem length_dumpMembers_of_mem {kvs : List (PyStr × Json)} {k : PyStr} {x : Json}
    (h : (k, x) ∈ kvs) : x.dump.length ≤ (Json.dumpMembers kvs).length := by
  induction kvs with
  | nil => cases h
  | cons kv kvs ih =>
    obtain ⟨l, y⟩ := kv
    simp only [Json.dumpMembers, List.length_cons, List.length_append]
    rcases List.mem_cons.mp h with he | h
    · cases he
      omega
    · have := ih h
      omega

theorem length_dump_of_mem {kvs : List (PyStr × Json)} {k : PyStr} {x : Json} (h : (k, x) ∈ kvs) :
    x.dump.length ≤ (Json.obj kvs).dump.length := by
  cases kvs with
  | nil => cases h
  | cons kv kvs =>
    obtain ⟨l, y⟩ := kv
    simp only [Json.dump, List.length_cons, List.length_append]
    rcases List.mem_cons.mp h with he | h
    · cases he
      omega
    · have := length_dumpMembers_of_mem h
      omega

variable [Ed25519]

theorem Records.length_publicKey {record : Json} (h : Records.validateRecord record true = .ok ()) :
    ∃ s, record.get "author_public_key" = some (.str s) ∧ s.length = 64 := by
  simp only [Records.validateRecord, Records.validateTexts, bind_ok, require_ok, exists_unit] at h
  obtain ⟨kind, -, ⟨-, -, -, -, -, -, hlen, -⟩, -⟩ := h
  cases hg : record.get "author_public_key" with
  | none => simp [Json.text, hg] at hlen
  | some v =>
    cases v with
    | str s => exact ⟨s, rfl, by simpa [Json.text, hg] using hlen⟩
    | _ => simp [Json.text, hg] at hlen

theorem Records.length_envelope {record : Json} {m : Bytes}
    (h : Records.validateRecord record true = .ok ())
    (hm : Codec.canonicalJsonBytes (envelopeForId record) = .ok m) : 64 < m.length := by
  obtain ⟨s, hs, hlen⟩ := Records.length_publicKey h
  obtain ⟨fields, _, rfl, -⟩ := Records.validateRecord_ok h
  have hkey : ascii "author_public_key" ≠ ascii "record_id" := by decide
  have hmem : (ascii "author_public_key", Json.str s) ∈
      Json.sortMembers (Json.sortKeysMembers (fields.filter fun kv => kv.1 ≠ ascii "record_id")) := by
    rw [Json.mem_sortMembers, Json.sortKeysMembers_eq]
    exact List.mem_map.mpr ⟨_, List.mem_filter.mpr ⟨Json.mem_of_lookup hs, decide_eq_true hkey⟩, rfl⟩
  have hdump : (Json.quote s).length ≤ (envelopeForId (.obj fields)).sortKeys.dump.length :=
    length_dump_of_mem hmem
  have hutf8 := length_utf8 (Codec.canonicalJsonBytes_ok hm).2
  have hquote := length_quote s
  omega

end Envelope

section Soundness

open Merkle

def listedDigests (batch : Json) : List Bytes :=
  (batch.items "record_ids").map fun v => (fromHex v.strValue).getD []

def recordDigest (record : Json) : Bytes := (fromHex (record.text "record_id")).getD []

theorem mapM_leaf {ids : List PyStr} (h : ∀ s ∈ ids, ∃ raw, IsDigest s raw) :
    ids.mapM leaf = .ok (ids.map fun s => (fromHex s).getD []) := by
  induction ids with
  | nil => rfl
  | cons s ids ih =>
    simp only [List.mem_cons, forall_eq_or_imp] at h
    obtain ⟨raw, -, hraw, hlen⟩ := h.1
    rw [List.mapM_cons, leaf_ok.mpr ⟨hraw, hlen⟩, ih h.2, List.map_cons, hraw]
    rfl

variable [Ed25519] {S : Set Bytes} {record batch proof : Json}

omit [Ed25519] in
theorem Batch.root (b : Batch) : (∀ a ∈ listedDigests b.body, a.length = 32) ∧ ∃ top,
    level parent (listedDigests b.body) (height (listedDigests b.body)) = [top] ∧
      b.body.text "merkle_root" = hex top := by
  have hf := b.facts
  have hlisted : listedDigests b.body = b.recordIds.map fun s => (fromHex s).getD [] := by
    simp only [listedDigests, Batch.recordIds, List.map_map]
    rfl
  rw [hlisted]
  refine ⟨fun a ha => ?_, ?_⟩
  · obtain ⟨s, hs, rfl⟩ := List.mem_map.mp ha
    obtain ⟨raw, -, hraw, hlen⟩ := hf.digests s hs
    rw [hraw]
    exact hlen
  · obtain ⟨root, hroot, hget⟩ := hf.root
    obtain ⟨leaves, hl, top, htop, rfl⟩ := merkleRoot_ok hf.nonempty hroot
    rw [mapM_leaf hf.digests] at hl
    obtain rfl := Except.ok.inj hl
    exact ⟨top, htop, by rw [Json.text, hget]⟩

theorem Record.hashed (r : Record) : ∃ m,
    Codec.canonicalJsonBytes (Records.envelopeForId r.body) = .ok m ∧
      r.body.get "record_id" = some (.str (hex (sha256 m))) ∧ 64 < m.length := by
  obtain ⟨_, id, -, -, hid, hc⟩ := Records.validateRecord_ok r.valid
  simp only [Records.calculateRecordId, bind_ok] at hc
  obtain ⟨m, hm, he⟩ := hc
  obtain rfl := Except.ok.inj he
  exact ⟨m, hm, hid, Records.length_envelope r.valid hm⟩

namespace Service

theorem verifyPackage_valid {c : Checks} (h : verifyPackage record (some proof) = .ok c)
    (hc : c.validStructure = true) : Records.validateRecord record true = .ok () ∧
      Batches.validateBatch (proof.getD "batch" .null) = .ok () ∧
      Merkle.verifyMerkleProof (record.getD "record_id" (.str []))
        (proof.getD "path" (.arr [])) ((proof.getD "batch" .null).text "merkle_root") = true := by
  simp only [verifyPackage, bind_ok, require_ok, exists_unit] at h
  obtain ⟨⟨signature, identity, recordError⟩, hrecord, -, h⟩ := h
  cases hproof : checkProof record proof (proof.getD "batch" .null) with
  | error e =>
    simp only [hproof] at h
    obtain rfl := Except.ok.inj h
    simp [Checks.validStructure, List.reduceOption] at hc
  | ok x =>
    obtain ⟨membership, payload⟩ := x
    simp only [hproof] at h
    obtain rfl := Except.ok.inj h
    simp only [Checks.validStructure, List.reduceOption, List.filterMap_cons, id_eq,
      List.filterMap_nil, List.all_cons, List.all_nil, Bool.and_true, Bool.and_eq_true] at hc
    obtain ⟨rfl, -, -, rfl, -⟩ := hc
    simp only [checkProof, bind_ok, require_ok, exists_unit] at hproof
    obtain ⟨-, hb, -, p, -, hp⟩ := hproof
    refine ⟨?_, hb, (Prod.mk.inj (Except.ok.inj hp)).1⟩
    unfold checkRecord at hrecord
    split at hrecord
    · assumption
    · split_ifs at hrecord
      cases hrecord

theorem checkRecord_valid (r : Record) : checkRecord r.body = .ok (true, true, none) := by
  obtain ⟨fields, id, -, -, hid, hcalc⟩ := Records.validateRecord_ok r.valid
  have hid' : id = r.body.text "record_id" := by rw [Json.text, hid]
  unfold checkRecord
  split
  · rw [hcalc, ← hid']
    exact congrArg (fun b => Except.ok (true, b, none)) (decide_eq_true rfl)
  · rename_i e he
    rw [r.valid] at he
    cases he

theorem exists_verifyPackage {r : Record} {b : Batch} (hb : proof.get "batch" = some b.body)
    (hpath : Merkle.verifyMerkleProof (r.body.getD "record_id" (.str []))
      (proof.getD "path" (.arr [])) (b.body.text "merkle_root") = true) :
    ∃ c, verifyPackage r.body (some proof) = .ok c ∧ c.validStructure = true := by
  obtain ⟨fields, -, hr, -⟩ := Records.validateRecord_ok r.valid
  obtain ⟨kvs, hkvs, -⟩ := b.facts.fields
  obtain ⟨p, hp, hm⟩ := b.decode
  have hrecord := checkRecord_valid r
  have hproof : checkProof r.body proof b.body = .ok (true, true) := by
    have hobj : (b.body matches .obj _) = true := by rw [hkvs]
    have hobj' : (r.body matches .obj _) = true := by rw [hr]
    have hpay : Bitcoin.decodeAnchorPayload (b.body.text "payload_hex") = .ok p := hp
    have hman : p.manifestHash = b.body.text "batch_id" := hm
    simp only [checkProof, bind_ok, require_ok, exists_unit]
    exact ⟨hobj, b.valid, hobj', p, hpay, by rw [hpath, hman, decide_eq_true rfl]; rfl⟩
  have hdict : ∀ v : Json, v.get "batch" = some b.body → (v matches .obj _) = true := by
    intro v hv
    cases v with
    | obj kvs => rfl
    | _ => cases hv
  have hbatch : proof.getD "batch" .null = b.body := by rw [Json.getD, hb, Option.getD_some]
  refine ⟨⟨true, true, none, some true, some true, some true, none⟩, ?_, rfl⟩
  simp only [verifyPackage, bind_ok, require_ok, exists_unit]
  exact ⟨_, hrecord, hdict proof hb, by rw [hbatch, hproof]; rfl⟩

end Service

/-- Where the hashed strings do not collide, every accepted proof of a record's membership in a batch
is of a listed record exactly if the record is listed or no chain of hashes leads from its digest to
a listed one. -/
theorem verify_package_sound_iff (hS : Set.InjOn sha256 S)
    (henv : ∀ m, Codec.canonicalJsonBytes (Records.envelopeForId record) = .ok m → m ∈ S)
    (htree : treeBytes (listedDigests batch) ⊆ S) :
    (∀ proof c, proof.get "batch" = some batch →
      (∀ steps, readPath (proof.getD "path" (.arr [])) = some steps →
        pathBytes (recordDigest record) steps ⊆ S) →
      Service.verifyPackage record (some proof) = .ok c → c.validStructure = true →
        .str (record.text "record_id") ∈ batch.items "record_ids") ↔
    ∀ (r : Record) (b : Batch), r.body = record → b.body = batch →
      .str (record.text "record_id") ∈ batch.items "record_ids" ∨
        ∀ steps : List (Step Bytes), (∀ s ∈ steps, s.sibling.length = 32) →
          pathBytes (recordDigest record) steps ⊆ S →
          climb parent (recordDigest record) steps ∉ listedDigests batch := by
  constructor
  · rintro hsound r b rfl rfl
    by_contra! hnot
    obtain ⟨hlisted, steps, hsteps, hin, hmem⟩ := hnot
    obtain ⟨hleaves, top, htop, hroot⟩ := b.root
    obtain ⟨above, habove, hsub, hclimb⟩ := exists_climb_of_leaf hleaves hmem
    obtain ⟨m, -, hid, -⟩ := r.hashed
    have hdigest : recordDigest r.body = sha256 m := by
      rw [recordDigest, Json.text, hid]
      simp
    have hpath : readPath (.arr ((steps ++ above).map stepAsDict)) = some (steps ++ above) := by
      apply readPath_stepsAsDict
      intro s hs
      rcases List.mem_append.mp hs with hs | hs
      · exact hsteps s hs
      · exact habove s hs
    set proof : Json := .obj [("batch", b.body), ("path", .arr ((steps ++ above).map stepAsDict))]
      with hproof
    have hget : proof.getD "path" (.arr []) = .arr ((steps ++ above).map stepAsDict) := rfl
    obtain ⟨c, hc, hv⟩ := @Service.exists_verifyPackage _ proof r b rfl (by
      rw [Json.getD, hid, Option.getD_some, verifyMerkleProof_iff]
      refine ⟨sha256 m, steps ++ above, leaf_ok.mpr ⟨fromHex_hex _, length_sha256 m⟩, hpath, ?_⟩
      rw [climb_append, ← hdigest, hroot]
      rw [htop, List.mem_singleton] at hclimb
      rw [hclimb])
    refine hlisted (hsound proof c rfl ?_ hc hv)
    intro steps' hsteps'
    obtain rfl : steps ++ above = steps' := Option.some.inj (hpath.symm.trans hsteps')
    rintro _ ⟨p, hp, rfl⟩
    rw [pathPairs_append] at hp
    rcases hp with hp | hp
    · exact hin ⟨p, hp, rfl⟩
    · exact htree (hsub ⟨p, hp, rfl⟩)
  · intro hcond proof c hb hin hverify hvalid
    obtain ⟨hr, hbatch, hmerkle⟩ := Service.verifyPackage_valid hverify hvalid
    have hget : proof.getD "batch" .null = batch := by rw [Json.getD, hb, Option.getD_some]
    rw [hget] at hbatch hmerkle
    obtain ⟨m, hm, hid, hlong⟩ := Record.hashed ⟨record, hr⟩
    obtain ⟨hleaves, top, htop, hroot⟩ := Batch.root ⟨batch, hbatch⟩
    have hdigest : recordDigest record = sha256 m := by
      rw [recordDigest, Json.text, hid]
      simp
    rcases hcond ⟨record, hr⟩ ⟨batch, hbatch⟩ rfl rfl with hlisted | hnone
    · exact hlisted
    rw [Json.getD, hid, Option.getD_some, verifyMerkleProof_iff] at hmerkle
    obtain ⟨v, steps, hleaf, hpath, hend⟩ := hmerkle
    obtain rfl : sha256 m = v :=
      Option.some.inj ((fromHex_hex (sha256 m)).symm.trans (leaf_ok.mp hleaf).1)
    have hclimb : climb parent (sha256 m) steps ∈
        level parent (listedDigests batch) (height (listedDigests batch)) := by
      rw [htop, List.mem_singleton]
      exact hex_injective (hend.trans hroot)
    rcases exists_leaf_of_climb hS hleaves htree (length_sha256 m) (length_of_readPath hpath)
        (hdigest ▸ hin steps hpath) hclimb with ⟨below, hb₁, hb₂, hb₃⟩ | ⟨a, b, ha, hb', hmem, he⟩
    · exact absurd (hdigest.symm ▸ hb₃) (hnone below hb₁ (hdigest.symm ▸ hb₂))
    · -- A record at an inner node would have an envelope of two digests.
      have hab : m = a ++ b := hS (henv m hm) (htree hmem) he
      rw [hab, List.length_append] at hlong
      omega

end Soundness

section Linked

open Merkle

theorem treeBytes_singleton (a : Bytes) : treeBytes [a] = ∅ := by
  ext m
  simp only [treeBytes, treePairs, Set.mem_image, Set.mem_ofPred_eq, Set.mem_empty_iff_false,
    iff_false]
  rintro ⟨p, ⟨k, hk, -⟩, -⟩
  exact absurd hk (by simp [height])

theorem treeBytes_three {a b c m : Bytes} (h : m ∈ treeBytes [a, b, c]) :
    m = a ++ b ∨ m = c ++ c ∨ m = parent (a, b) ++ parent (c, c) := by
  obtain ⟨p, ⟨n, hn, hp⟩, rfl⟩ := h
  have htwo : n < 2 := hn.trans_eq (show Nat.clog 2 3 = 2 by decide)
  obtain rfl | rfl : n = 0 ∨ n = 1 := by omega
  · have hp : p ∈ [(a, b), (c, c)] := by simpa [level, pad, pairs] using hp
    rcases List.mem_cons.mp hp with rfl | hp
    · exact Or.inl rfl
    · exact Or.inr (Or.inl (List.mem_singleton.mp hp ▸ rfl))
  · have hp : p ∈ [(parent (a, b), parent (c, c))] := by
      simpa [level, parents, pad, pairs] using hp
    exact Or.inr (Or.inr (List.mem_singleton.mp hp ▸ rfl))

attribute [local instance] feedKeys

theorem earlyBatch_digests : listedDigests earlyBatch =
    [recordDigest noticeBody, recordDigest restrictionBody, recordDigest harmlessBody] := rfl

/-- The strings hashed for the claim and for the tree of its batch. -/
def linkedHashed : Set Bytes :=
  {m | Codec.canonicalJsonBytes (Records.envelopeForId harmlessBody) = .ok m} ∪
    treeBytes (listedDigests earlyBatch)

/-- The nodes of the tree over the notice, the restriction and the claim. -/
def linkedNodes : List (Bytes × PyStr) :=
  [(recordDigest noticeBody ++ recordDigest restrictionBody,
      "e6053eaaf2e6c97e171320e8f5698c72d097fbae7ce05b0861fe3ce6b535b4a8"),
    (recordDigest harmlessBody ++ recordDigest harmlessBody,
      "41124efcbf49a7fbd046df67e95d0a861fc3022c459a86be999330a39f391156"),
    (parent (recordDigest noticeBody, recordDigest restrictionBody) ++
        parent (recordDigest harmlessBody, recordDigest harmlessBody),
      "cdaf59e82522cb347f0fa1700a5539df48868524f976b81e85c7ef7cdf1c55c9")]

theorem linkedNodes_hashed : ∀ x ∈ linkedNodes, hex (sha256 x.1) = x.2 := by
  decide +kernel

theorem exists_linkedNode {m : Bytes} (hm : m ∈ treeBytes (listedDigests earlyBatch)) :
    ∃ digest, (m, digest) ∈ linkedNodes := by
  rw [earlyBatch_digests] at hm
  rcases treeBytes_three hm with rfl | rfl | rfl
  · exact ⟨_, List.mem_cons_self⟩
  · exact ⟨_, List.mem_cons_of_mem _ List.mem_cons_self⟩
  · exact ⟨_, List.mem_cons_of_mem _ (List.mem_cons_of_mem _ List.mem_cons_self)⟩

theorem injOn_linkedHashed : Set.InjOn sha256 linkedHashed := by
  obtain ⟨m, hm, hid, -⟩ := Record.hashed ⟨harmlessBody, harmlessBody_valid⟩
  have hid : hex (sha256 m) = "ee8090f2561c04e94986db5aa987c0028c72b64a72a2c4484562dfab614ac2c9" :=
    (Json.str.inj (Option.some.inj hid)).symm
  apply injOn_sha256_of_digests (L := (m, hex (sha256 m)) :: linkedNodes)
  · rintro m' (hm' | hm')
    · obtain rfl := Except.ok.inj (hm.symm.trans hm')
      exact ⟨_, List.mem_cons_self⟩
    · obtain ⟨digest, hmem⟩ := exists_linkedNode hm'
      exact ⟨digest, List.mem_cons_of_mem _ hmem⟩
  · exact List.forall_mem_cons.mpr ⟨rfl, linkedNodes_hashed⟩
  · show (hex (sha256 m) :: linkedNodes.map Prod.snd).Nodup
    rw [hid]
    decide +kernel

/-- The claim and the batch that lists it behind the notice and the restriction. -/
theorem verify_package_sound_iff_sample :
    (∀ proof c, proof.get "batch" = some earlyBatch →
      (∀ steps, readPath (proof.getD "path" (.arr [])) = some steps →
        pathBytes (recordDigest harmlessBody) steps ⊆ linkedHashed) →
      Service.verifyPackage harmlessBody (some proof) = .ok c → c.validStructure = true →
        .str (harmlessBody.text "record_id") ∈ earlyBatch.items "record_ids") ↔
    ∀ (r : Record) (b : Batch), r.body = harmlessBody → b.body = earlyBatch →
      .str (harmlessBody.text "record_id") ∈ earlyBatch.items "record_ids" ∨
        ∀ steps : List (Step Bytes), (∀ s ∈ steps, s.sibling.length = 32) →
          pathBytes (recordDigest harmlessBody) steps ⊆ linkedHashed →
          climb parent (recordDigest harmlessBody) steps ∉ listedDigests earlyBatch :=
  verify_package_sound_iff injOn_linkedHashed (fun _ => Or.inl) Set.subset_union_right

end Linked

section Witness

open Merkle

attribute [local instance] conformanceKeys

/-- The digest of the conformance record, once more behind itself. -/
def sampleTwice : Bytes := recordDigest conformanceRecord ++ recordDigest conformanceRecord

/-- A batch that lists the hash of `sampleTwice` alone. -/
def nestedBatch : Json :=
  .obj [
    ("schema", .str "hap.batch"), ("version", .int 3), ("created_at", .int 1721332920),
    ("network", .str "signet"), ("record_count", .int 1),
    ("record_ordering", .str "record_id_lexicographic_v1"),
    ("record_ids",
      .arr [.str "e832da549236b2e8f47ad8f754aaa3c82901f6b570f0f6e7c2a052370e55ff0c"]),
    ("merkle_root", .str "e832da549236b2e8f47ad8f754aaa3c82901f6b570f0f6e7c2a052370e55ff0c"),
    ("algorithms", .obj [
      ("record_id", .str "sha256"), ("batch_id", .str "sha256"),
      ("merkle_parent", .str "sha256(left||right)"),
      ("canonical_json", .str "hap-canonical-json-v1")]),
    ("batch_id", .str "f0b05deda9e1b7256723817bd3c4f0afc16ae1c0a9c4518ceb328459f022b5c6"),
    ("payload_hex",
      .str "484953540301f0b05deda9e1b7256723817bd3c4f0afc16ae1c0a9c4518ceb328459f022b5c6")]

theorem nestedBatch_valid : Batches.validateBatch nestedBatch = .ok () := by
  simp only [Batches.validateBatch, Batches.validateIdentity, Batches.calculateBatchId,
    Codec.sha256Hex, sha256_eq_words]
  decide +kernel

/-- The step from the record's digest to the digest that the batch lists. -/
def sampleStep : Step Bytes := ⟨recordDigest conformanceRecord, .right⟩

def nestedProof : Json :=
  .obj [("batch", nestedBatch), ("path", .arr [stepAsDict sampleStep])]

def sampleHashed : Set Bytes :=
  {m | Codec.canonicalJsonBytes (Records.envelopeForId conformanceRecord) = .ok m ∨ m = sampleTwice}

theorem injOn_sampleHashed : Set.InjOn sha256 sampleHashed := by
  have hne : ∀ m, Codec.canonicalJsonBytes (Records.envelopeForId conformanceRecord) = .ok m →
      sha256 m ≠ sha256 sampleTwice := by
    intro m hm he
    have hid : Records.calculateRecordId conformanceRecord = .ok (hex (sha256 m)) := by
      rw [Records.calculateRecordId, hm]
      rfl
    obtain ⟨_, id, -, -, hget, hcalculated⟩ := Records.validateRecord_ok conformanceRecord_valid
    obtain rfl := Json.str.inj (Option.some.inj hget)
    have hne : hex (sha256Words sampleTwice) ≠
        "fe4fd10287faaea0736fe25fb849264527c0387bc8968786a9c19d8fa5aefeb5" := by
      decide +kernel
    rw [he, sha256_eq_words] at hid
    exact hne (Except.ok.inj (hid.symm.trans hcalculated))
  rintro m (hm | rfl) m' (hm' | rfl) he
  · exact Except.ok.inj (hm.symm.trans hm')
  · exact absurd he (hne m hm)
  · exact absurd he.symm (hne m' hm')
  · rfl

/-- A proof is accepted although the batch does not list the record, and nothing hashed along the
way collides. -/
theorem verify_package_unlisted : Set.InjOn sha256 sampleHashed ∧
    (∀ m, Codec.canonicalJsonBytes (Records.envelopeForId conformanceRecord) = .ok m →
      m ∈ sampleHashed) ∧
    treeBytes (listedDigests nestedBatch) ⊆ sampleHashed ∧
    pathBytes (recordDigest conformanceRecord) [sampleStep] ⊆ sampleHashed ∧
    (∃ c, Service.verifyPackage conformanceRecord (some nestedProof) = .ok c ∧
      c.validStructure = true) ∧
    .str (conformanceRecord.text "record_id") ∉ nestedBatch.items "record_ids" := by
  refine ⟨injOn_sampleHashed, fun _ => Or.inl, ?_, ?_, ?_, ?_⟩
  · obtain ⟨a, ha⟩ : ∃ a, listedDigests nestedBatch = [a] := ⟨_, rfl⟩
    rw [ha, treeBytes_singleton]
    exact Set.empty_subset _
  · rintro _ ⟨p, hp, rfl⟩
    rcases hp with rfl | hp
    · exact Or.inr rfl
    · exact absurd hp (Set.notMem_empty p)
  · exact @Service.exists_verifyPackage _ nestedProof ⟨_, conformanceRecord_valid⟩
      ⟨_, nestedBatch_valid⟩ rfl (by decide +kernel)
  · intro h
    have he := Json.str.inj (List.mem_singleton.mp h)
    exact absurd he (by decide +kernel)

end Witness

end HistoryAnchor

import HistoryAnchor.Protocol.Shapes
import HistoryAnchor.Protocol.Uniqueness
import HistoryAnchor.Publication.Proofs

/-! # The root of a package

The identifiers in a package are hashes of envelopes, which are longer than the pair
of digests below an inner node. So the root binds the whole list, although an odd
level repeats its last node.
-/

namespace HistoryAnchor

open Python MerkleTree Merkle

section Binding

variable [Ed25519] {S : Set Bytes} {p q b b' : Json} {rs rs' : List Json} {i i' : PyStr}

namespace Packages

/-- The strings hashed for the records of a package and for its tree. -/
def rootBytes (package : Json) : Set Bytes :=
  {m | ∃ r ∈ package.items "records", Codec.canonicalJsonBytes (Records.envelopeForId r) = .ok m} ∪
    treeBytes (listedDigests (package.getD "batch" .null))

theorem Facts.listed (h : Facts p b rs i) : b.get "record_ids" =
    some (.arr (rs.map fun r => .str (r.text "record_id"))) := by
  obtain ⟨ids, _, _, hfacts⟩ := Batches.validateBatch_ok h.validBatch
  have hval : ∀ x, Json.strValue (.str x) = x := fun _ => rfl
  have hids := h.ids
  simp only [Json.items, hfacts.recordIds, List.map_map, Function.comp_def, hval,
    List.map_id'] at hids
  rw [hfacts.recordIds, ← hids, List.map_map]
  rfl

/-- The digests that the batch of a package lists are hashes of the envelopes of its records. -/
theorem Facts.listedDigests_eq (h : Facts p b rs i) :
    listedDigests b = rs.map recordDigest := by
  rw [listedDigests, Json.items, h.listed, List.map_map]
  rfl

theorem Facts.exists_envelope (h : Facts p b rs i) {r : Json} (hr : r ∈ rs) : ∃ m,
    Codec.canonicalJsonBytes (Records.envelopeForId r) = .ok m ∧
      r.text "record_id" = hex (sha256 m) ∧ recordDigest r = sha256 m ∧ 64 < m.length := by
  obtain ⟨m, hm, hid, hlong⟩ := Record.hashed ⟨r, h.validRecords r hr⟩
  have htext : r.text "record_id" = hex (sha256 m) := by rw [Json.text, hid]
  refine ⟨m, hm, htext, ?_, hlong⟩
  rw [recordDigest, htext, fromHex_hex, Option.getD_some]

/-- What the tree of an accepted package is made of. -/
structure Rooted (S : Set Bytes) (leaves : List Bytes) (root : PyStr) : Prop where
  nonempty : leaves ≠ []
  nodup : leaves.Nodup
  pairs : treePairs parent leaves ⊆ {x | x.1.length = 32 ∧ x.2.length = 32 ∧ x.1 ++ x.2 ∈ S}
  top : ∃ top, level parent leaves (height leaves) = [top] ∧ root = hex top
  leaf : ∀ a ∈ leaves, ∀ x : Bytes × Bytes, x.1.length = 32 → x.2.length = 32 →
    x.1 ++ x.2 ∈ S → parent x ≠ a

theorem Facts.map_text_eq (h : Facts p b rs i) :
    rs.map (Json.text · "record_id") = (rs.map recordDigest).map hex := by
  rw [List.map_map]
  apply List.map_congr_left
  intro r hr
  obtain ⟨m, -, htext, hdigest, -⟩ := h.exists_envelope hr
  rw [Function.comp_apply, htext, hdigest]

theorem Facts.rooted (h : Facts p b rs i) (hS : Set.InjOn sha256 S) (hsub : rootBytes p ⊆ S) :
    Rooted S (rs.map recordDigest) (b.text "merkle_root") := by
  have hbatch : p.getD "batch" .null = b := by rw [Json.getD, h.batch, Option.getD_some]
  have hrecords : p.items "records" = rs := by rw [Json.items, h.records]
  obtain ⟨hlength, top, htop, hroot⟩ := Batch.root ⟨b, h.validBatch⟩
  rw [h.listedDigests_eq] at hlength htop
  have hlevel := length_of_mem_level hlength
  constructor
  · rintro hnil
    rw [hnil] at htop
    simp [height] at htop
  · apply List.Nodup.of_map hex
    rw [← h.map_text_eq, h.ids]
    exact Batches.nodup_strValue_recordIds h.validBatch
  · rintro ⟨x, y⟩ hxy
    have hlevels := hxy
    obtain ⟨n, -, hm⟩ := hlevels
    obtain ⟨hx, hy⟩ := mem_of_mem_pairs hm
    refine ⟨hlevel n x (mem_pad.mp hx), hlevel n y (mem_pad.mp hy), hsub (Or.inr ?_)⟩
    rw [hbatch, h.listedDigests_eq]
    exact ⟨(x, y), hxy, rfl⟩
  · exact ⟨top, htop, hroot⟩
  · rintro a ha ⟨x, y⟩ hx hy hxy he
    obtain ⟨r, hr, rfl⟩ := List.mem_map.mp ha
    obtain ⟨m, hm, -, hdigest, hlong⟩ := h.exists_envelope hr
    have henvelope : m ∈ S := hsub (Or.inl ⟨r, hrecords ▸ hr, hm⟩)
    have hlen := congrArg List.length (hS hxy henvelope (he.trans hdigest))
    rw [List.length_append] at hlen
    simp only at hx hy hlen
    omega

omit [Ed25519] in
theorem Rooted.unique (hS : Set.InjOn sha256 S) {leaves leaves' : List Bytes} {root : PyStr}
    (h : Rooted S leaves root) (h' : Rooted S leaves' root) : leaves = leaves' := by
  obtain ⟨top, htop, hroot⟩ := h.top
  obtain ⟨top', htop', hroot'⟩ := h'.top
  obtain rfl := hex_injective (hroot.symm.trans hroot')
  have hinj : Set.InjOn parent
      {x : Bytes × Bytes | x.1.length = 32 ∧ x.2.length = 32 ∧ x.1 ++ x.2 ∈ S} := by
    apply (injOn_parent hS).mono
    rintro x ⟨hx, -, hm⟩
    exact ⟨hx, hm⟩
  exact eq_of_top hinj h.pairs h'.pairs h.nodup h'.nodup h.nonempty h'.nonempty
    (fun a ha x hx => h.leaf a ha x hx.1 hx.2.1 hx.2.2)
    (fun a ha x hx => h'.leaf a ha x hx.1 hx.2.1 hx.2.2) (htop.trans htop'.symm)

/-- Accepted packages whose batches name one root list the same identifiers in the same order. -/
theorem record_ids_eq_of_merkle_root (hp : validatePackage p = .ok ())
    (hq : validatePackage q = .ok ())
    (hroot : (p.getD "batch" .null).get "merkle_root" = (q.getD "batch" .null).get "merkle_root")
    (hS : Set.InjOn sha256 (rootBytes p ∪ rootBytes q)) :
    (p.getD "batch" .null).get "record_ids" = (q.getD "batch" .null).get "record_ids" := by
  obtain ⟨b, rs, i, h⟩ := validatePackage_ok hp
  obtain ⟨b', rs', i', h'⟩ := validatePackage_ok hq
  have hb : p.getD "batch" .null = b := by rw [Json.getD, h.batch, Option.getD_some]
  have hb' : q.getD "batch" .null = b' := by rw [Json.getD, h'.batch, Option.getD_some]
  rw [hb, hb'] at hroot ⊢
  have hrooted := h.rooted hS Set.subset_union_left
  have hrooted' := h'.rooted hS Set.subset_union_right
  have htext : b.text "merkle_root" = b'.text "merkle_root" := by rw [Json.text, Json.text, hroot]
  rw [← htext] at hrooted'
  have hdigests := hrooted.unique hS hrooted'
  have hids : rs.map (Json.text · "record_id") = rs'.map (Json.text · "record_id") := by
    rw [h.map_text_eq, h'.map_text_eq, hdigests]
  have hlisted : ∀ xs : List Json, (xs.map fun r => Json.str (r.text "record_id")) =
      (xs.map (Json.text · "record_id")).map .str := fun xs => by
    rw [List.map_map]
    rfl
  rw [h.listed, h'.listed, hlisted, hlisted, hids]

end Packages

end Binding

section Witness

attribute [local instance] feedKeys

def linkedPackage (batch : Json) (packageId : PyStr) : Json :=
  .obj [
    ("schema", .str "hap.package"), ("version", .int 1), ("batch", batch),
    ("records", .arr [noticeBody, restrictionBody, harmlessBody]), ("package_id", .str packageId)]

def earlyPackage : Json := linkedPackage earlyBatch
  "9788eb1362d22a228fba86ecade124603d432f2ac19b3c278742cf6d2c28c305"

def latePackage : Json := linkedPackage lateBatch
  "f7eab1bc3e0ac8c3739e2b223af4ddbfea430cbf16f49692cf0b30302bfd437f"

theorem linkedBodies_valid : ∀ r ∈ [noticeBody, restrictionBody, harmlessBody],
    Records.validateRecord r true = .ok () := by
  simp only [List.forall_mem_cons]
  exact ⟨noticeBody_valid, restrictionBody_valid, harmlessBody_valid,
    fun _ h => absurd h List.not_mem_nil⟩

theorem linkedPackage_valid {createdAt : ℤ} {batchId packageId : PyStr}
    (hb : Batches.validateBatch (linkedBatch createdAt batchId) = .ok ())
    (hc : Packages.calculatePackageId (linkedPackage (linkedBatch createdAt batchId) packageId) =
      .ok packageId) :
    Packages.validatePackage (linkedPackage (linkedBatch createdAt batchId) packageId) = .ok () := by
  have hrecords : Packages.validateRecords .packageValidationError
      "package contains a duplicate record" [noticeBody, restrictionBody, harmlessBody] =
        .ok ([noticeBody, restrictionBody, harmlessBody].map (Json.text · "record_id")) :=
    Packages.validateRecords_iff.mpr ⟨linkedBodies_valid, by decide +kernel, rfl⟩
  have hid : (Json.str packageId).eqStr packageId = true := decide_eq_true rfl
  exact Packages.validatePackage_iff.mpr ⟨linkedBatch createdAt batchId, _, _, _, rfl, rfl, rfl, rfl,
    rfl, hb, rfl, List.cons_ne_nil _ _, rfl, hrecords, rfl, hc, hid⟩

theorem earlyPackage_valid : Packages.validatePackage earlyPackage = .ok () := by
  apply linkedPackage_valid earlyBatch_valid
  simp only [Packages.calculatePackageId, Codec.sha256Hex, sha256_eq_words]
  decide +kernel

theorem latePackage_valid : Packages.validatePackage latePackage = .ok () := by
  apply linkedPackage_valid lateBatch_valid
  simp only [Packages.calculatePackageId, Codec.sha256Hex, sha256_eq_words]
  decide +kernel

/-- The envelopes of the three records and the nodes of their tree, which both packages share. -/
theorem injOn_rootBytes_linked :
    Set.InjOn sha256 (Packages.rootBytes earlyPackage ∪ Packages.rootBytes latePackage) := by
  obtain ⟨m₁, hm₁, hid₁, -⟩ := Record.hashed ⟨noticeBody, noticeBody_valid⟩
  obtain ⟨m₂, hm₂, hid₂, -⟩ := Record.hashed ⟨restrictionBody, restrictionBody_valid⟩
  obtain ⟨m₃, hm₃, hid₃, -⟩ := Record.hashed ⟨harmlessBody, harmlessBody_valid⟩
  have hid₁ := Json.str.inj (Option.some.inj hid₁)
  have hid₂ := Json.str.inj (Option.some.inj hid₂)
  have hid₃ := Json.str.inj (Option.some.inj hid₃)
  have hsame : Packages.rootBytes latePackage = Packages.rootBytes earlyPackage := rfl
  rw [hsame, Set.union_self]
  apply injOn_sha256_of_digests (L := (m₁, hex (sha256 m₁)) :: (m₂, hex (sha256 m₂)) ::
    (m₃, hex (sha256 m₃)) :: linkedNodes)
  · rintro m (⟨r, hr, hm⟩ | hm)
    · have hr : r ∈ [noticeBody, restrictionBody, harmlessBody] := hr
      simp only [List.mem_cons, List.not_mem_nil, or_false] at hr
      rcases hr with rfl | rfl | rfl
      · obtain rfl := Except.ok.inj (hm₁.symm.trans hm)
        exact ⟨_, List.mem_cons_self⟩
      · obtain rfl := Except.ok.inj (hm₂.symm.trans hm)
        exact ⟨_, List.mem_cons_of_mem _ List.mem_cons_self⟩
      · obtain rfl := Except.ok.inj (hm₃.symm.trans hm)
        exact ⟨_, List.mem_cons_of_mem _ (List.mem_cons_of_mem _ List.mem_cons_self)⟩
    · obtain ⟨digest, hmem⟩ := exists_linkedNode hm
      exact ⟨digest, by simp [hmem]⟩
  · simp only [List.forall_mem_cons]
    exact ⟨trivial, trivial, trivial, linkedNodes_hashed⟩
  · show (hex (sha256 m₁) :: hex (sha256 m₂) :: hex (sha256 m₃) :: linkedNodes.map Prod.snd).Nodup
    rw [← hid₁, ← hid₂, ← hid₃]
    decide +kernel

theorem record_ids_eq_of_merkle_root_sample :
    (earlyPackage.getD "batch" .null).get "record_ids" =
      (latePackage.getD "batch" .null).get "record_ids" :=
  Packages.record_ids_eq_of_merkle_root earlyPackage_valid latePackage_valid rfl
    injOn_rootBytes_linked

end Witness

end HistoryAnchor

import HistoryAnchor.Evidence.Store
import HistoryAnchor.Protocol.Order
import HistoryAnchor.Protocol.Typed
import Mathlib.Data.List.ReduceOption

/-! # Survival archives

One archive holds a snapshot, the evidence files whose bytes verify, and a manifest
with the hashes of both. What one program writes the other reads member by member.
-/

namespace HistoryAnchor

open Python Tables EvidenceStore

namespace Survival

def survivalSchema : PyStr := "hap.survival-manifest"
def survivalVersion : ℤ := 1

inductive MemberType
  | file | link | other
  deriving DecidableEq

structure Member where
  name : PyStr
  type : MemberType
  content : Bytes

def Member.size (m : Member) : ℤ := m.content.length

def manifestName : PyStr := "manifest.json"
def snapshotName : PyStr := "snapshot.json"

/-- `f"evidence/{digest}"`. -/
def evidenceName (digest : PyStr) : PyStr := ascii "evidence/" ++ digest

def evidenceEntry (f : EvidenceFile) : Json :=
  .obj [("sha256", .str f.name), ("size", .int f.content.length),
    ("member", .str (evidenceName f.name))]

def verifiedFiles (e : EvidenceStore) : Py (List EvidenceFile) := do
  let files ← e.files.mapM fun f => do
    return if ← e.verify (.str f.name) then some f else none
  return files.reduceOption

def manifestMembers (snapshotId : Json) (snapshotBytes : Bytes) (files : List EvidenceFile) :
    List (PyStr × Json) :=
  [("schema", .str survivalSchema), ("version", .int survivalVersion),
   ("snapshot_id", snapshotId), ("snapshot_sha256", .str (Codec.sha256Hex snapshotBytes)),
   ("evidence", .arr (files.map evidenceEntry))]

def archiveMembers (snapshotBytes manifestBytes : Bytes) (files : List EvidenceFile) :
    List Member :=
  ⟨snapshotName, .file, snapshotBytes⟩ :: ⟨manifestName, .file, manifestBytes⟩ ::
    files.map fun f => ⟨evidenceName f.name, .file, f.content⟩

/-- `value[key]`. -/
def item (v : Json) (k : PyStr) : Py Json :=
  match v.get k with
  | some x => .ok x
  | none => raise .keyError k

/-- The manifest that is returned and the archive that is written. -/
def exportSurvivalArchive (snapshot : Json) (e : EvidenceStore) : Py (Json × List Member) := do
  let files ← verifiedFiles e
  let snapshotId ← item snapshot "snapshot_id"
  let snapshotBytes ← Codec.canonicalJsonBytes snapshot
  let members := manifestMembers snapshotId snapshotBytes files
  let manifestId := Codec.sha256Hex (← Codec.canonicalJsonBytes (.obj members))
  let identity : List (PyStr × Json) := [("manifest_id", .str manifestId)]
  let manifest := Json.obj (members ++ identity)
  let manifestBytes ← Codec.canonicalJsonBytes manifest
  return (manifest, archiveMembers snapshotBytes manifestBytes files)

/-- What reading rests on: `json.loads`, and a float in an f-string. -/
structure Reader extends Loader where
  formatFloat : Option ℚ → PyStr

/-- A value in an f-string; the others have been refused as unhashable. -/
def Reader.formatted (reader : Reader) : Json → PyStr
  | .str s => s
  | .null => "None"
  | .bool true => "True"
  | .bool false => "False"
  | .int n => decimalInt n
  | .float q => reader.formatFloat q
  | .arr _ | .obj _ => []

def loads (reader : Reader) (b : Bytes) : Py Json :=
  match reader.loads b with
  | some v => .ok v
  | none => raise .valueError "Expecting value"

def survivalFields : List PyStr :=
  ["schema", "version", "snapshot_id", "snapshot_sha256", "evidence", "manifest_id"]

def validateManifest (manifest snapshot : Json) : Py (List Json) := do
  match manifest with
  | .obj fields =>
    require (Json.hasFields fields survivalFields) .survivalArchiveError
      "survival manifest fields do not match the schema"
    require ((manifest.getD "schema" .null).eqStr survivalSchema ∧
      (manifest.getD "version" .null).eqInt survivalVersion) .survivalArchiveError
      "unsupported survival archive version"
    require (manifest.getD "evidence" .null matches .arr _) .survivalArchiveError
      "survival evidence manifest must be a list"
    let body ← Codec.canonicalJsonBytes (manifest.erase "manifest_id")
    require ((manifest.getD "manifest_id" .null).eqStr (Codec.sha256Hex body))
      .survivalArchiveError "survival manifest integrity check failed"
    let bytes ← Codec.canonicalJsonBytes snapshot
    require ((manifest.getD "snapshot_sha256" .null).eqStr (Codec.sha256Hex bytes))
      .survivalArchiveError "snapshot bytes do not match the survival manifest"
    return manifest.items "evidence"
  | _ => raise .survivalArchiveError "survival manifest fields do not match the schema"

def memberNamed (archive : List Member) (name : PyStr) : Option Member :=
  archive.find? fun m => m.name = name

/-- The snapshot of the archive and the entries of its manifest. -/
def readMetadata (reader : Reader) (archive : List Member) (maxMetadataBytes : ℤ) :
    Py (Json × List Json) := do
  require ((archive.map Member.name).Nodup) .survivalArchiveError
    "survival archive contains duplicate member names"
  require (∀ m ∈ archive, m.type ≠ .link) .survivalArchiveError
    "survival archive must not contain links"
  match memberNamed archive manifestName, memberNamed archive snapshotName with
  | some manifestMember, some snapshotMember => do
    forM [manifestMember, snapshotMember] fun m =>
      require (m.type = .file ∧ 0 ≤ m.size ∧ m.size ≤ maxMetadataBytes) .survivalArchiveError
        (m.name ++ " exceeds the configured metadata limit")
    let manifest ← loads reader manifestMember.content
    let snapshot ← loads reader snapshotMember.content
    let entries ← validateManifest manifest snapshot
    return (snapshot, entries)
  | _, _ =>
    raise .survivalArchiveError "survival archive is missing manifest.json or snapshot.json"

def entryFields : List PyStr := ["sha256", "size", "member"]

/-- `digest in seen_digests`. -/
def isSeen (digest : Json) (seen : List Json) : Py Bool :=
  match digest with
  | .arr _ => raise .typeError "unhashable type: 'list'"
  | .obj _ => raise .typeError "unhashable type: 'dict'"
  | v => .ok (seen.any v.same)

def requireMember (archive : List Member) (name : Json) : Py Member :=
  match name with
  | .str s =>
    match memberNamed archive s with
    | some m => .ok m
    | none => raise .survivalArchiveError "survival evidence member is missing"
  | _ => raise .survivalArchiveError "survival evidence member is missing"

def requireSize (value : Json) (maxEvidenceBytes : ℤ) : Py ℤ :=
  match value.asInt with
  | none => raise .survivalArchiveError "survival evidence size is invalid"
  | some size => do
    require (0 ≤ size ∧ size ≤ maxEvidenceBytes) .survivalArchiveError
      "survival evidence size is invalid"
    return size

def checkEntry (reader : Reader) (archive : List Member) (maxEvidenceBytes : ℤ)
    (seen : List Json) (entry : Json) : Py (Json × Member × ℤ) := do
  match entry with
  | .obj fields =>
    require (Json.hasFields fields entryFields) .survivalArchiveError
      "survival evidence entry fields do not match the schema"
    let digest := entry.getD "sha256" .null
    let known ← isSeen digest seen
    require (known = false) .survivalArchiveError "survival manifest contains duplicate evidence"
    let member ← requireMember archive (entry.getD "member" .null)
    require (member.name = evidenceName (reader.formatted digest)) .survivalArchiveError
      "survival evidence member path is not canonical"
    let size ← requireSize (entry.getD "size" .null) maxEvidenceBytes
    require (member.type = .file ∧ member.size = size) .survivalArchiveError
      "survival evidence member metadata is invalid"
    return (digest, member, size)
  | _ => raise .survivalArchiveError "survival evidence entry fields do not match the schema"

def importEvidence (reader : Reader) (archive : List Member) (maxEvidenceBytes : ℤ) :
    List Json → List Json → ℕ → EvidenceStore → Py ℕ × EvidenceStore
  | [], _, imported, e => (.ok imported, e)
  | entry :: entries, seen, imported, e =>
    match checkEntry reader archive maxEvidenceBytes seen entry with
    | .error exc => (.error exc, e)
    | .ok (digest, member, size) =>
      match e.storeStream digest member.content maxEvidenceBytes (some size) with
      | (.error exc, e') => (.error exc, e')
      | (.ok _, e') =>
        importEvidence reader archive maxEvidenceBytes entries (digest :: seen) (imported + 1) e'

section

variable {e : EvidenceStore} {f : EvidenceFile} {fs : List EvidenceFile} {archive : List Member}
variable {reader : Reader} {maxEvidenceBytes maxMetadataBytes : ℤ} {snapshot manifest : Json}

theorem mem_files : f ∈ e.files ↔ f ∈ e := List.mem_insertionSort _

theorem nodup_names_files (e : EvidenceStore) : (e.files.map EvidenceFile.name).Nodup :=
  (((List.perm_insertionSort _ _).map EvidenceFile.name).nodup_iff).mpr e.nodup

theorem verify_mem (h : f ∈ e) : e.verify (.str f.name) = .ok (decide (Intact f)) := by
  have hfind : e.find? f.name = some f := Table.find?_eq_some.mpr ⟨h, rfl⟩
  rw [EvidenceStore.verify, EvidenceStore.validateDigest_name]
  simp only [bind, Except.bind, hfind]
  rfl

theorem verifiedFiles_eq : verifiedFiles e = .ok (e.files.filter fun f => Intact f) := by
  have hmap : (e.files.mapM fun f => do
      return if ← e.verify (.str f.name) then some f else none) =
        .ok (e.files.map fun f => if Intact f then some f else none) := by
    apply Packages.mapM_ok
    intro f hf
    rw [verify_mem (mem_files.mp hf)]
    simp only [bind, Except.bind, decide_eq_true_eq]
    rfl
  have hreduce : (e.files.map fun f => if Intact f then some f else none).reduceOption =
      e.files.filter fun f => Intact f := by
    rw [List.reduceOption, List.filterMap_map, ← List.filterMap_eq_filter]
    apply List.filterMap_congr
    intro f _
    by_cases h : Intact f <;> simp [h, Option.guard]
  rw [verifiedFiles, hmap]
  exact congrArg Except.ok hreduce

theorem item_ok {v x : Json} {k : PyStr} : item v k = .ok x ↔ v.get k = some x := by
  rw [item]
  cases v.get k with
  | none => exact iff_of_false raise_ne_ok nofun
  | some y => exact ⟨fun h => congrArg some (Except.ok.inj h), fun h => congrArg _ (Option.some.inj h)⟩

theorem exportSurvivalArchive_ok (h : exportSurvivalArchive snapshot e = .ok (manifest, archive)) :
    ∃ snapshotId snapshotBytes manifestBytes members body,
      members = manifestMembers snapshotId snapshotBytes (e.files.filter fun f => Intact f) ∧
      snapshot.get "snapshot_id" = some snapshotId ∧
      Codec.canonicalJsonBytes snapshot = .ok snapshotBytes ∧
      Codec.canonicalJsonBytes (.obj members) = .ok body ∧
      manifest = .obj (members ++
        ([("manifest_id", .str (Codec.sha256Hex body))] : List (PyStr × Json))) ∧
      Codec.canonicalJsonBytes manifest = .ok manifestBytes ∧
      archive = archiveMembers snapshotBytes manifestBytes (e.files.filter fun f => Intact f) := by
  simp only [exportSurvivalArchive, verifiedFiles_eq, bind_ok, Except.ok.injEq, exists_eq_left',
    pure, Except.pure, Prod.mk.injEq, item_ok] at h
  obtain ⟨snapshotId, hid, snapshotBytes, hs, body, hb, manifestBytes, hm, rfl, rfl⟩ := h
  exact ⟨snapshotId, snapshotBytes, manifestBytes, _, body, rfl, hid, hs, hb, rfl, hm, rfl⟩

theorem encodes_evidenceEntry (hsize : (f.content.length : ℤ) ≤ Codec.maxSafeJsonInteger) :
    Encodes 2 (evidenceEntry f) := by
  obtain ⟨_, hd, -⟩ := isDigest_name f
  have hlow : -Codec.maxSafeJsonInteger ≤ (f.content.length : ℤ) :=
    le_trans (by decide) (Int.natCast_nonneg _)
  apply Encodes.obj (by omega)
  · simp only [List.forall_mem_cons]
    exact ⟨encodable_of_all (by decide), encodable_of_all (by decide),
      encodable_of_all (by decide), fun _ h => absurd h List.not_mem_nil⟩
  · simp only [List.forall_mem_cons]
    exact ⟨.str (by omega) hd.encodable, .int (by omega) ⟨hlow, hsize⟩,
      .str (by omega) (encodable_append.mpr ⟨encodable_of_all (by decide), hd.encodable⟩),
      fun _ h => absurd h List.not_mem_nil⟩

/-- The writer returns once the snapshot and the sizes of the files can be encoded. -/
theorem exists_exportSurvivalArchive {snapshotId : PyStr} {snapshotBytes : Bytes}
    (hid : snapshot.get "snapshot_id" = some (.str snapshotId))
    (hs : Codec.canonicalJsonBytes snapshot = .ok snapshotBytes)
    (hsize : ∀ f ∈ e, (f.content.length : ℤ) ≤ Codec.maxSafeJsonInteger) :
    ∃ x, exportSurvivalArchive snapshot e = .ok x := by
  have hencodable : Encodable snapshotId := by
    cases Archive.encodes_get (Codec.exists_canonicalJsonBytes_iff.mp ⟨_, hs⟩) hid with
    | str _ h => exact h
  have hhash : ∀ b, Encodable (Codec.sha256Hex b) := fun b => encodable_of_fromHex (fromHex_hex _)
  have hnames : ∀ name ∈ survivalFields, Encodable name := by
    simp only [survivalFields, List.forall_mem_cons]
    exact ⟨encodable_of_all (by decide), encodable_of_all (by decide),
      encodable_of_all (by decide), encodable_of_all (by decide), encodable_of_all (by decide),
      encodable_of_all (by decide), fun _ h => absurd h List.not_mem_nil⟩
  set fs := e.files.filter fun f => Intact f with hfs
  have hentries : Encodes 1 (.arr (fs.map evidenceEntry)) := by
    refine .arr (by omega) (List.forall_mem_map.mpr fun f hf => encodes_evidenceEntry ?_)
    exact hsize f (mem_files.mp (List.mem_of_mem_filter hf))
  have hvalues : ∀ kv ∈ manifestMembers (.str snapshotId) snapshotBytes fs, Encodes 1 kv.2 := by
    simp only [manifestMembers, List.forall_mem_cons]
    exact ⟨.str (by omega) (encodable_of_all (by decide)), .int (by omega) (by decide),
      .str (by omega) hencodable, .str (by omega) (hhash _), hentries,
      fun _ h => absurd h List.not_mem_nil⟩
  obtain ⟨body, hbody⟩ : ∃ b, Codec.canonicalJsonBytes
      (.obj (manifestMembers (.str snapshotId) snapshotBytes fs)) = .ok b := by
    apply Codec.exists_canonicalJsonBytes_iff.mpr
    refine .obj (by omega) (fun kv hkv => hnames _ ?_) hvalues
    exact List.mem_append_left [_] (List.mem_map_of_mem (f := Prod.fst) hkv)
  obtain ⟨bytes, hbytes⟩ : ∃ b, Codec.canonicalJsonBytes
      (.obj (manifestMembers (.str snapshotId) snapshotBytes fs ++
        ([("manifest_id", .str (Codec.sha256Hex body))] : List (PyStr × Json)))) = .ok b := by
    apply Codec.exists_canonicalJsonBytes_iff.mpr
    refine .obj (by omega) (fun kv hkv => hnames _ ?_) (List.forall_mem_append.mpr ⟨hvalues, ?_⟩)
    · exact List.mem_map_of_mem (f := Prod.fst) hkv
    · exact List.forall_mem_singleton.mpr (.str (by omega) (hhash _))
  simp only [exportSurvivalArchive, exists_bind_ok]
  exact ⟨fs, verifiedFiles_eq, .str snapshotId, item_ok.mpr hid, snapshotBytes, hs, body, hbody,
    bytes, hbytes, _, rfl⟩

theorem evidenceName_ne (digest : PyStr) :
    evidenceName digest ≠ snapshotName ∧ evidenceName digest ≠ manifestName := by
  have hhead : (evidenceName digest).head? = some 101 := rfl
  constructor
  · intro h
    rw [h] at hhead
    exact absurd hhead (by decide)
  · intro h
    rw [h] at hhead
    exact absurd hhead (by decide)

theorem nodup_names_archiveMembers (snapshotBytes manifestBytes : Bytes)
    (hn : (fs.map EvidenceFile.name).Nodup) :
    ((archiveMembers snapshotBytes manifestBytes fs).map Member.name).Nodup := by
  have hevidence : (fs.map fun f => evidenceName f.name).Nodup := by
    have h := hn.map (f := evidenceName) fun _ _ h => List.append_cancel_left h
    rwa [List.map_map] at h
  have hne : ∀ name ∈ fs.map fun f => evidenceName f.name,
      name ≠ snapshotName ∧ name ≠ manifestName :=
    List.forall_mem_map.mpr fun f _ => evidenceName_ne f.name
  rw [archiveMembers, List.map_cons, List.map_cons, List.map_map, List.nodup_cons, List.nodup_cons]
  refine ⟨?_, fun h => (hne _ h).2 rfl, hevidence⟩
  rintro (_ | ⟨_, h⟩)
  exact (hne _ h).1 rfl

theorem memberNamed_of_mem {m : Member} (hn : (archive.map Member.name).Nodup) (hm : m ∈ archive) :
    memberNamed archive m.name = some m :=
  Table.find?_eq_some (t := (⟨archive, hn⟩ : Table Member.name)).mpr ⟨hm, rfl⟩

theorem loads_ok {v : Json} {b : Bytes} (hv : v.WF) (h : Codec.canonicalJsonBytes v = .ok b) :
    loads reader b = .ok v.sortKeys := by
  rw [loads, Codec.loads_canonicalJsonBytes hv h]

theorem evidenceEntry_wf (f : EvidenceFile) : (evidenceEntry f).WF := by
  have hkeys : entryFields.Nodup := by decide
  exact ⟨hkeys, trivial, trivial, trivial, trivial⟩

theorem validateManifest_ok {snapshotId : Json} {snapshotBytes body : Bytes}
    {members : List (PyStr × Json)} (hm : members = manifestMembers snapshotId snapshotBytes fs)
    (hid : snapshotId.WF) (hs : Codec.canonicalJsonBytes snapshot = .ok snapshotBytes)
    (hb : Codec.canonicalJsonBytes (.obj members) = .ok body)
    (hmanifest : manifest = .obj (members ++
      ([("manifest_id", .str (Codec.sha256Hex body))] : List (PyStr × Json)))) :
    manifest.WF ∧ validateManifest manifest.sortKeys snapshot.sortKeys =
      .ok ((fs.map evidenceEntry).map Json.sortKeys) := by
  have hw : manifest.WF := by
    have hkeys : survivalFields.Nodup := by decide
    rw [hmanifest, hm]
    refine ⟨hkeys, trivial, trivial, hid, trivial, ?_, trivial, trivial⟩
    exact Json.wfList_iff.mpr (List.forall_mem_map.mpr fun f _ => evidenceEntry_wf f)
  refine ⟨hw, ?_⟩
  have hbytes : Codec.canonicalJsonBytes snapshot.sortKeys = .ok snapshotBytes :=
    Codec.canonicalJsonBytes_of_sortKeys_eq (Json.sortKeys_sortKeys snapshot).symm hs
  have herase : manifest.erase "manifest_id" = .obj members := by
    rw [hmanifest, hm]
    rfl
  have hbody : Codec.canonicalJsonBytes (manifest.sortKeys.erase "manifest_id") = .ok body := by
    apply Codec.canonicalJsonBytes_erase_sortKeys hw
    rw [herase]
    exact hb
  subst hm hmanifest
  obtain ⟨lws, hsorted, hf⟩ := Json.exists_sortKeys_obj (manifestMembers snapshotId snapshotBytes fs
    ++ ([("manifest_id", .str (Codec.sha256Hex body))] : List (PyStr × Json)))
  rw [hsorted]
  simp only [validateManifest, ← hsorted, hf, Json.getD_null_sortKeys hw, Json.eqStr_sortKeys,
    Json.eqInt_sortKeys, Json.items_sortKeys hw, hbytes, bind_ok, require_ok, exists_unit,
    Except.ok.injEq, exists_eq_left']
  exact ⟨rfl, ⟨Batches.eqStr_iff.mpr rfl, rfl⟩, rfl, body, hbody, Batches.eqStr_iff.mpr rfl,
    Batches.eqStr_iff.mpr rfl, rfl⟩

theorem readMetadata_ok {snapshotBytes manifestBytes : Bytes} {entries : List Json}
    (hn : (fs.map EvidenceFile.name).Nodup) (hs : Codec.canonicalJsonBytes snapshot = .ok snapshotBytes)
    (hw : snapshot.WF) (hm : Codec.canonicalJsonBytes manifest = .ok manifestBytes)
    (hwm : manifest.WF) (hv : validateManifest manifest.sortKeys snapshot.sortKeys = .ok entries)
    (hls : (snapshotBytes.length : ℤ) ≤ maxMetadataBytes)
    (hlm : (manifestBytes.length : ℤ) ≤ maxMetadataBytes) :
    readMetadata reader (archiveMembers snapshotBytes manifestBytes fs) maxMetadataBytes =
      .ok (snapshot.sortKeys, entries) := by
  have hnames := nodup_names_archiveMembers snapshotBytes manifestBytes hn
  have hmanifest := memberNamed_of_mem hnames (List.mem_cons_of_mem _ List.mem_cons_self)
  have hsnapshot := memberNamed_of_mem hnames List.mem_cons_self
  have hlinks : ∀ m ∈ archiveMembers snapshotBytes manifestBytes fs, m.type ≠ .link := by
    intro m hm
    rcases List.mem_cons.mp hm with rfl | hm
    · nofun
    · rcases List.mem_cons.mp hm with rfl | hm
      · nofun
      · obtain ⟨f, -, rfl⟩ := List.mem_map.mp hm
        nofun
  simp only [readMetadata, bind_ok, require_ok, exists_unit]
  refine ⟨hnames, hlinks, ?_⟩
  rw [hmanifest, hsnapshot]
  simp only [bind_ok, forM_ok, require_ok, exists_unit, loads_ok hw hs, loads_ok hwm hm,
    Except.ok.injEq, exists_eq_left', hv, List.forall_mem_cons]
  exact ⟨⟨⟨trivial, Int.natCast_nonneg _, hlm⟩, ⟨trivial, Int.natCast_nonneg _, hls⟩,
    fun _ h => absurd h List.not_mem_nil⟩, rfl⟩

theorem checkEntry_ok {seen : List Json} (hn : (archive.map Member.name).Nodup)
    (hm : ⟨evidenceName f.name, .file, f.content⟩ ∈ archive) (hseen : Json.str f.name ∉ seen)
    (hl : (f.content.length : ℤ) ≤ maxEvidenceBytes) :
    checkEntry reader archive maxEvidenceBytes seen (evidenceEntry f).sortKeys =
      .ok (.str f.name, ⟨evidenceName f.name, .file, f.content⟩, f.content.length) := by
  have hw := evidenceEntry_wf f
  have hnew : (seen.any fun v => (Json.str f.name).same v) = false := by
    rw [List.any_eq_false]
    intro v hv he
    rw [Json.same_str] at he
    exact hseen (Batches.eqStr_iff.mp he ▸ hv)
  have hmember : requireMember archive (.str (evidenceName f.name)) =
      .ok ⟨evidenceName f.name, .file, f.content⟩ := by
    rw [requireMember, memberNamed_of_mem hn hm]
  have hsize : requireSize (.int f.content.length) maxEvidenceBytes = .ok (f.content.length : ℤ) := by
    simp only [requireSize, Json.asInt, bind_ok, require_ok, exists_unit]
    exact ⟨⟨Int.natCast_nonneg _, hl⟩, rfl⟩
  obtain ⟨lws, hsorted, hf⟩ := Json.exists_sortKeys_obj
    [("sha256", .str f.name), ("size", .int f.content.length),
      ("member", .str (evidenceName f.name))]
  rw [evidenceEntry] at hw ⊢
  rw [hsorted]
  simp only [checkEntry, ← hsorted, hf, Json.getD_null_sortKeys hw, bind_ok, require_ok, exists_unit]
  refine ⟨rfl, false, congrArg Except.ok hnew, rfl, _, hmember, rfl, _, hsize, ⟨rfl, rfl⟩, rfl⟩

theorem mem_replace {g : EvidenceFile} :
    g ∈ e.replace f ↔ g = f ∨ g ∈ e ∧ g.name ≠ f.name := by
  rw [EvidenceStore.replace, Table.mem_upsert]
  constructor
  · rintro (h | ⟨_, -, -, rfl⟩ | ⟨rfl, -⟩)
    · exact Or.inr h
    · exact Or.inl rfl
    · exact Or.inl rfl
  · rintro (rfl | h)
    · by_cases hex : ∃ c ∈ e, c.name = g.name
      · obtain ⟨c, hc, hk⟩ := hex
        exact Or.inr (Or.inl ⟨c, hc, hk, rfl⟩)
      · push Not at hex
        exact Or.inr (Or.inr ⟨rfl, hex⟩)
    · exact Or.inl h

theorem storeStream_ok (hi : Intact f) (hnew : ∀ g ∈ e, g.name ≠ f.name)
    (hl : (f.content.length : ℤ) ≤ maxEvidenceBytes) :
    e.storeStream (.str f.name) f.content maxEvidenceBytes (some f.content.length) =
      (.ok ⟨f.name, f.content.length⟩, e.replace f) := by
  have hfind : e.find? f.name = none := Table.find?_eq_none.mpr hnew
  have hlimit : ¬ (f.content ≠ [] ∧ maxEvidenceBytes < f.content.length) := fun h => by omega
  have hsize : ¬ (some (f.content.length : ℤ)).any (· ≠ (f.content.length : ℤ)) := by simp
  rw [storeStream]
  split
  · rename_i exc he
    rw [validateDigest_name] at he
    cases he
  · rename_i name hname
    obtain rfl := Except.ok.inj ((validateDigest_name f).symm.trans hname)
    rw [hfind, Option.filter_none]
    dsimp only
    rw [if_neg hlimit, if_neg hsize, if_neg (not_not_intro (show Codec.sha256Hex _ = _ from hi))]

theorem importEvidence_ok (hn : (archive.map Member.name).Nodup)
    (hm : ∀ f ∈ fs, ⟨evidenceName f.name, .file, f.content⟩ ∈ archive)
    (hi : ∀ f ∈ fs, Intact f) (hl : ∀ f ∈ fs, (f.content.length : ℤ) ≤ maxEvidenceBytes)
    (hfs : (fs.map EvidenceFile.name).Nodup) {seen : List Json} {imported : ℕ}
    (hseen : ∀ f ∈ fs, Json.str f.name ∉ seen) (hnew : ∀ f ∈ fs, ∀ g ∈ e, g.name ≠ f.name) :
    ∃ e', importEvidence reader archive maxEvidenceBytes ((fs.map evidenceEntry).map Json.sortKeys)
      seen imported e = (.ok (imported + fs.length), e') ∧ ∀ g, g ∈ e' ↔ g ∈ e ∨ g ∈ fs := by
  induction fs generalizing e seen imported with
  | nil => exact ⟨e, rfl, fun g => (or_iff_left List.not_mem_nil).symm⟩
  | cons f fs ih =>
    obtain ⟨hmf, hmfs⟩ := List.forall_mem_cons.mp hm
    obtain ⟨hif, hifs⟩ := List.forall_mem_cons.mp hi
    obtain ⟨hlf, hlfs⟩ := List.forall_mem_cons.mp hl
    obtain ⟨hsf, hsfs⟩ := List.forall_mem_cons.mp hseen
    obtain ⟨hef, hefs⟩ := List.forall_mem_cons.mp hnew
    obtain ⟨hff, hfs⟩ := List.nodup_cons.mp hfs
    have hother : ∀ g ∈ fs, g.name ≠ f.name := fun g hg he => hff (he ▸ List.mem_map_of_mem hg)
    have hseen' : ∀ g ∈ fs, Json.str g.name ∉ Json.str f.name :: seen := by
      intro g hg
      rw [List.mem_cons, not_or]
      exact ⟨fun h => hother g hg (Json.str.inj h), hsfs g hg⟩
    have hnew' : ∀ g ∈ fs, ∀ x ∈ e.replace f, x.name ≠ g.name := by
      intro g hg x hx
      rcases mem_replace.mp hx with rfl | ⟨hx, -⟩
      · exact (hother g hg).symm
      · exact hefs g hg x hx
    obtain ⟨e', he, hmem⟩ := @ih _ hmfs hifs hlfs hfs _ (imported + 1) hseen' hnew'
    refine ⟨e', ?_, fun g => ?_⟩
    · rw [List.map_cons, List.map_cons, importEvidence, checkEntry_ok hn hmf hsf hlf]
      dsimp only
      rw [storeStream_ok hif hef hlf]
      dsimp only
      rw [he, List.length_cons, Nat.add_assoc, Nat.add_comm 1]
    · rw [hmem, mem_replace, List.mem_cons]
      constructor
      · rintro ((rfl | ⟨hg, -⟩) | hg)
        · exact Or.inr (Or.inl rfl)
        · exact Or.inl hg
        · exact Or.inr (Or.inr hg)
      · rintro (hg | rfl | hg)
        · exact Or.inl (Or.inr ⟨hg, hef g hg⟩)
        · exact Or.inl (Or.inl rfl)
        · exact Or.inr hg

/-- The size limits are at least as large as the members. -/
structure Within (archive : List Member) (maxEvidenceBytes maxMetadataBytes : ℤ) : Prop where
  metadata : ∀ m ∈ archive, m.name = snapshotName ∨ m.name = manifestName →
    m.size ≤ maxMetadataBytes
  evidence : ∀ m ∈ archive, m.name ≠ snapshotName → m.name ≠ manifestName →
    m.size ≤ maxEvidenceBytes

/-- The archive that was written is accepted, and the evidence that verified is restored. -/
theorem survivalArchive_ok (hw : snapshot.WF)
    (h : exportSurvivalArchive snapshot e = .ok (manifest, archive))
    (hl : Within archive maxEvidenceBytes maxMetadataBytes) :
    ∃ entries imported e', readMetadata reader archive maxMetadataBytes =
        .ok (snapshot.sortKeys, entries) ∧
      importEvidence reader archive maxEvidenceBytes entries [] 0 Table.empty =
        (.ok imported, e') ∧ ∀ f, f ∈ e' ↔ f ∈ e ∧ e.verify (.str f.name) = .ok true := by
  obtain ⟨snapshotId, snapshotBytes, manifestBytes, members, body, hm, hid, hs, hb, hmanifest,
    hmb, rfl⟩ := exportSurvivalArchive_ok h
  set fs := e.files.filter fun f => Intact f with hfs
  have hmem : ∀ f, f ∈ fs ↔ f ∈ e ∧ Intact f := by
    intro f
    rw [hfs, List.mem_filter, mem_files, decide_eq_true_eq]
  have hn : (fs.map EvidenceFile.name).Nodup :=
    (List.filter_sublist.map EvidenceFile.name).nodup (nodup_names_files e)
  have hmember : ∀ f ∈ fs,
      ⟨evidenceName f.name, .file, f.content⟩ ∈ archiveMembers snapshotBytes manifestBytes fs :=
    fun f hf => List.mem_cons_of_mem _ (List.mem_cons_of_mem _ (List.mem_map_of_mem hf))
  obtain ⟨hwm, hvalid⟩ := validateManifest_ok hm (hw.get hid) hs hb hmanifest
  have hread := @readMetadata_ok fs reader maxMetadataBytes snapshot manifest _ _ _ hn hs hw hmb
    hwm hvalid (hl.metadata _ List.mem_cons_self (Or.inl rfl))
    (hl.metadata _ (List.mem_cons_of_mem _ List.mem_cons_self) (Or.inr rfl))
  obtain ⟨e', he, hmem'⟩ := @importEvidence_ok Table.empty fs _ reader maxEvidenceBytes
    (nodup_names_archiveMembers snapshotBytes manifestBytes hn) hmember
    (fun f hf => ((hmem f).mp hf).2)
    (fun f hf => hl.evidence _ (hmember f hf) (evidenceName_ne _).1 (evidenceName_ne _).2) hn [] 0
    (fun _ _ => List.not_mem_nil) fun _ _ _ hg => absurd hg Table.not_mem_empty
  refine ⟨_, _, e', hread, he, fun f => ?_⟩
  rw [hmem', hmem, or_iff_right Table.not_mem_empty]
  apply and_congr_right
  intro hf
  rw [verify_mem hf, Except.ok.injEq, decide_eq_true_eq]

end

end Survival

end HistoryAnchor

import HistoryAnchor.Evidence.Store
import HistoryAnchor.Python.Encoding

/-! # The two writers of evidence

A stream is written where no file verifies, and checked before it takes its place. A file
is read twice: the second reading takes its place unchecked, and where a file exists already
nothing is written, so that a bad one stays.
-/

namespace HistoryAnchor

open Python Tables

namespace EvidenceStore

/-- What a stream answers to its reads one after the other; afterwards it is at its end. -/
abbrev Reads := List (Py Bytes)

def readAll : Reads → Py Bytes
  | [] => .ok []
  | read :: reads => do
    let chunk ← read
    if chunk = [] then return []
    let rest ← readAll reads
    return chunk ++ rest

def readLimited (maxBytes : ℤ) (total : Bytes) : Reads → Py Bytes
  | [] => .ok total
  | read :: reads => do
    let chunk ← read
    if chunk = [] then return total
    require (((total ++ chunk).length : ℤ) ≤ maxBytes) .evidenceStoreError
      "evidence download exceeds the configured size limit"
    readLimited maxBytes (total ++ chunk) reads

/-- `store_stream`, read by read. -/
def storeReads (e : EvidenceStore) (digest : Json) (reads : Reads) (maxBytes : ℤ)
    (expectedSize : Option ℤ) : Py Stored × EvidenceStore :=
  match h : validateDigest digest with
  | .error exc => (.error exc, e)
  | .ok name =>
    match (e.find? name).filter fun f => Intact f with
    | some f => (.ok ⟨name, f.content.length⟩, e)
    | none =>
      match readLimited maxBytes [] reads with
      | .error exc => (.error exc, e)
      | .ok stream =>
        if expectedSize.any (· ≠ (stream.length : ℤ)) then
          (raise .evidenceStoreError "evidence size does not match its signed metadata", e)
        else if Codec.sha256Hex stream ≠ name then
          (raise .evidenceStoreError "evidence bytes do not match the committed SHA-256 digest", e)
        else
          (.ok ⟨name, stream.length⟩, e.replace ⟨name, stream, named_of_validateDigest h⟩)

/-- A file to be added: its size, and what each of the two passes over it reads. -/
structure Source where
  regular : Bool
  size : Py ℕ
  first : Reads
  second : Reads

theorem named_sha256Hex (b : Bytes) : ∃ raw, raw.length = 32 ∧ Codec.sha256Hex b = hex raw :=
  ⟨sha256 b, length_sha256 b, rfl⟩

/-- What `add_file` returns for the file that is now under the digest. -/
def checkStored (e : EvidenceStore) (name : PyStr) (size : ℕ) : Py Stored × EvidenceStore :=
  match e.verify (.str name) with
  | .error exc => (.error exc, e)
  | .ok false => (raise .evidenceStoreError "stored evidence failed its SHA-256 verification", e)
  | .ok true => (.ok ⟨name, size⟩, e)

/-- Read the source for its digest, and again into its place unless there is a file already. -/
def addFile (e : EvidenceStore) (source : Source) (maxBytes : Option ℤ) :
    Py Stored × EvidenceStore :=
  if source.regular = false then
    (raise .evidenceStoreError "evidence source is not a regular file", e)
  else match source.size with
  | .error exc => (.error exc, e)
  | .ok size =>
    if maxBytes.any (· < (size : ℤ)) then
      (raise .evidenceStoreError ("evidence exceeds the configured " ++
        decimalInt (maxBytes.getD 0) ++ "-byte limit"), e)
    else match readAll source.first with
    | .error exc => (.error exc, e)
    | .ok content =>
      let name := Codec.sha256Hex content
      if (e.find? name).isSome then e.checkStored name size
      else match readAll source.second with
      | .error exc => (.error exc, e)
      | .ok copied => (e.replace ⟨name, copied, named_sha256Hex content⟩).checkStored name size

variable {e e' : EvidenceStore} {digest : Json} {reads : Reads} {maxBytes : ℤ}
  {expectedSize : Option ℤ} {b total : Bytes} {name : PyStr} {source : Source} {limit : Option ℤ}

theorem readLimited_of_readAll (h : readAll reads = .ok b) :
    readLimited maxBytes total reads =
      if b ≠ [] ∧ maxBytes < ((total ++ b).length : ℤ) then
        raise .evidenceStoreError "evidence download exceeds the configured size limit"
      else .ok (total ++ b) := by
  induction reads generalizing b total with
  | nil =>
    obtain rfl := Except.ok.inj h
    rw [readLimited, if_neg (fun h => h.1 rfl), List.append_nil]
  | cons read reads ih =>
    simp only [readAll, bind_ok] at h
    obtain ⟨chunk, rfl, h⟩ := h
    rw [readLimited]
    change (if chunk = [] then .ok total else do
      require (((total ++ chunk).length : ℤ) ≤ maxBytes) .evidenceStoreError _
      readLimited maxBytes (total ++ chunk) reads : Py Bytes) = _
    by_cases hchunk : chunk = []
    · rw [if_pos hchunk] at h ⊢
      obtain rfl := Except.ok.inj h
      rw [if_neg (fun h => h.1 rfl), List.append_nil]
    · rw [if_neg hchunk] at h ⊢
      obtain ⟨rest, hrest, h⟩ := bind_ok.mp h
      obtain rfl := Except.ok.inj h
      by_cases hle : ((total ++ chunk).length : ℤ) ≤ maxBytes
      · rw [(require_ok (u := ())).mpr hle]
        change readLimited maxBytes (total ++ chunk) reads = _
        rw [ih hrest, List.append_assoc]
        apply if_congr _ rfl rfl
        -- what the limit leaves out is in the rest, which is then not empty
        constructor
        · exact fun h => ⟨fun hnil => hchunk (List.append_eq_nil_iff.mp hnil).1, h.2⟩
        · rintro ⟨-, hlt⟩
          refine ⟨?_, hlt⟩
          rintro rfl
          rw [List.append_nil] at hlt
          exact absurd hle (not_le.mpr hlt)
      · have hover : maxBytes < ((total ++ (chunk ++ rest)).length : ℤ) := by
          simp only [List.length_append] at hle ⊢
          omega
        have hne : chunk ++ rest ≠ [] := fun hnil => hchunk (List.append_eq_nil_iff.mp hnil).1
        rw [require, if_neg hle, if_pos ⟨hne, hover⟩]
        rfl

theorem storeStream_of_error {exc : Exc} (h : validateDigest digest = .error exc) :
    e.storeStream digest b maxBytes expectedSize = (.error exc, e) := by
  rw [storeStream]
  split
  · rename_i exc' he
    rw [Except.error.inj (he.symm.trans h)]
  · rename_i hname
    exact nomatch h.symm.trans hname

theorem storeStream_of_ok (h : validateDigest digest = .ok name) :
    e.storeStream digest b maxBytes expectedSize =
      match (e.find? name).filter fun f => Intact f with
      | some f => (.ok ⟨name, f.content.length⟩, e)
      | none =>
        if b ≠ [] ∧ maxBytes < b.length then
          (raise .evidenceStoreError "evidence download exceeds the configured size limit", e)
        else if expectedSize.any (· ≠ (b.length : ℤ)) then
          (raise .evidenceStoreError "evidence size does not match its signed metadata", e)
        else if Codec.sha256Hex b ≠ name then
          (raise .evidenceStoreError "evidence bytes do not match the committed SHA-256 digest", e)
        else (.ok ⟨name, b.length⟩, e.replace ⟨name, b, named_of_validateDigest h⟩) := by
  rw [storeStream]
  split
  · rename_i he
    exact nomatch he.symm.trans h
  · rename_i name' hname
    obtain rfl := Except.ok.inj (hname.symm.trans h)
    rfl

theorem storeReads_eq (h : readAll reads = .ok b) :
    e.storeReads digest reads maxBytes expectedSize =
      e.storeStream digest b maxBytes expectedSize := by
  rw [storeReads]
  split
  · rename_i exc hexc
    rw [storeStream_of_error hexc]
  · rename_i name hname
    rw [storeStream_of_ok hname, readLimited_of_readAll h, List.nil_append]
    split
    · rfl
    · by_cases hover : b ≠ [] ∧ maxBytes < (b.length : ℤ)
      · rw [if_pos hover, if_pos hover]
        rfl
      · rw [if_neg hover, if_neg hover]

theorem storeReads_error {exc : Exc}
    (h : e.storeReads digest reads maxBytes expectedSize = (.error exc, e')) : e' = e := by
  unfold storeReads at h
  split at h
  · exact (Prod.mk.inj h).2.symm
  · split at h
    · cases h
    · split at h
      · exact (Prod.mk.inj h).2.symm
      · split_ifs at h
        · exact (Prod.mk.inj h).2.symm
        · exact (Prod.mk.inj h).2.symm
        · cases h

theorem find?_replace (e : EvidenceStore) (f : EvidenceFile) : (e.replace f).find? f.name = some f :=
  Table.find?_eq_some.mpr ⟨Table.mem_upsert_new, rfl⟩

theorem verify_of_find? {f : EvidenceFile} (hd : validateDigest digest = .ok name)
    (hf : e.find? name = some f) (hi : Intact f) : e.verify digest = .ok true := by
  rw [verify, hd]
  change Except.ok ((e.find? name).any fun f => Intact f) = _
  rw [hf, Option.any_some, decide_eq_true hi]

theorem storeStream_verifies (hd : validateDigest digest = .ok (Codec.sha256Hex b))
    (hl : (b.length : ℤ) ≤ maxBytes) (hs : ∀ n ∈ expectedSize, n = b.length) :
    ∃ stored e', e.storeStream digest b maxBytes expectedSize = (.ok stored, e') ∧
      e'.verify digest = .ok true := by
  rw [storeStream_of_ok hd]
  split
  · rename_i f hf
    obtain ⟨hf, hi⟩ := Option.filter_eq_some_iff.mp hf
    exact ⟨_, _, rfl, verify_of_find? hd hf (of_decide_eq_true hi)⟩
  · have hsize : ¬expectedSize.any (· ≠ (b.length : ℤ)) = true := by
      cases expectedSize with
      | none => exact Bool.false_ne_true
      | some n => simp [hs n rfl]
    rw [if_neg (fun h => absurd hl (not_le.mpr h.2)), if_neg hsize, if_neg (not_not.mpr rfl)]
    exact ⟨_, _, rfl, verify_of_find? hd (find?_replace e _) rfl⟩

/-- The source is a file of the bytes, and stays so. -/
structure Source.Holds (source : Source) (b : Bytes) : Prop where
  regular : source.regular = true
  size : source.size = .ok b.length
  first : readAll source.first = .ok b
  second : readAll source.second = .ok b

structure Source.Passes (source : Source) (limit : Option ℤ) (b b' : Bytes) : Prop where
  regular : source.regular = true
  size : ∃ n, source.size = .ok n ∧ ∀ m ∈ limit, (n : ℤ) ≤ m
  first : readAll source.first = .ok b
  second : readAll source.second = .ok b'

/-- The file is stored if it does not change, and no file has changed if the call raises. -/
structure AddsFile (e : EvidenceStore) (source : Source) (limit : Option ℤ) : Prop where
  stored : ∀ b, source.Holds b → (∀ m ∈ limit, (b.length : ℤ) ≤ m) →
    ∃ stored e', e.addFile source limit = (.ok stored, e') ∧
      e'.verify (.str (Codec.sha256Hex b)) = .ok true
  unchanged : ∀ exc e', e.addFile source limit = (.error exc, e') → e' = e

structure StoresStream (e : EvidenceStore) (digest : Json) (reads : Reads) (maxBytes : ℤ)
    (expectedSize : Option ℤ) : Prop where
  stored : ∀ b, readAll reads = .ok b → validateDigest digest = .ok (Codec.sha256Hex b) →
    (b.length : ℤ) ≤ maxBytes → (∀ n ∈ expectedSize, n = b.length) →
    ∃ stored e', e.storeReads digest reads maxBytes expectedSize = (.ok stored, e') ∧
      e'.verify digest = .ok true
  unchanged : ∀ exc e', e.storeReads digest reads maxBytes expectedSize = (.error exc, e') → e' = e

/-- No bad file stands under the digest of the source, and what a second reading copies to a free
place has the digest of the first. -/
structure Addable (e : EvidenceStore) (source : Source) (limit : Option ℤ) : Prop where
  intact : ∀ b, source.Holds b → (∀ m ∈ limit, (b.length : ℤ) ≤ m) →
    ∀ f, e.find? (Codec.sha256Hex b) = some f → Intact f
  steady : ∀ b b', source.Passes limit b b' → e.find? (Codec.sha256Hex b) = none →
    Codec.sha256Hex b' = Codec.sha256Hex b

theorem storesStream : StoresStream e digest reads maxBytes expectedSize := by
  constructor
  · intro b hb hd hl hs
    rw [storeReads_eq hb]
    exact storeStream_verifies hd hl hs
  · exact fun _ _ => storeReads_error

theorem validateDigest_sha256Hex (b : Bytes) :
    validateDigest (.str (Codec.sha256Hex b)) = .ok (Codec.sha256Hex b) := by
  apply validateDigest_of_isDigest
  exact ⟨by rw [Codec.sha256Hex, length_hex, length_sha256], fromHex_hex _, length_sha256 b⟩

theorem checkStored_of_find? {n : ℕ} {f : EvidenceFile}
    (hf : e.find? (Codec.sha256Hex b) = some f) : e.checkStored (Codec.sha256Hex b) n =
      (if Intact f then .ok ⟨Codec.sha256Hex b, n⟩ else
        raise .evidenceStoreError "stored evidence failed its SHA-256 verification", e) := by
  have hverify : e.verify (.str (Codec.sha256Hex b)) = .ok (decide (Intact f)) := by
    rw [verify, validateDigest_sha256Hex]
    change Except.ok ((e.find? _).any fun f => Intact f) = _
    rw [hf, Option.any_some]
  rw [checkStored, hverify]
  by_cases hi : Intact f
  · rw [if_pos hi, decide_eq_true hi]
  · rw [if_neg hi, decide_eq_false hi]

theorem addFile_of_first {n : ℕ} (hr : source.regular = true) (hn : source.size = .ok n)
    (hl : ∀ m ∈ limit, (n : ℤ) ≤ m) (hb : readAll source.first = .ok b) :
    e.addFile source limit =
      if (e.find? (Codec.sha256Hex b)).isSome then e.checkStored (Codec.sha256Hex b) n
      else match readAll source.second with
      | .error exc => (.error exc, e)
      | .ok b' => (e.replace ⟨Codec.sha256Hex b, b', named_sha256Hex b⟩).checkStored
          (Codec.sha256Hex b) n := by
  have hany : ¬limit.any (· < (n : ℤ)) = true := by
    cases limit with
    | none => exact Bool.false_ne_true
    | some m => simpa using hl m rfl
  rw [addFile, hr, if_neg (by decide), hn]
  dsimp only
  rw [if_neg hany, hb]

theorem addFile_of_exists {n : ℕ} {f : EvidenceFile} (hr : source.regular = true)
    (hn : source.size = .ok n) (hl : ∀ m ∈ limit, (n : ℤ) ≤ m)
    (hb : readAll source.first = .ok b) (hf : e.find? (Codec.sha256Hex b) = some f) :
    e.addFile source limit = (if Intact f then .ok ⟨Codec.sha256Hex b, n⟩ else
      raise .evidenceStoreError "stored evidence failed its SHA-256 verification", e) := by
  rw [addFile_of_first hr hn hl hb, if_pos (by rw [hf]; rfl), checkStored_of_find? hf]

theorem addFile_of_free {b' : Bytes} {n : ℕ} (hr : source.regular = true)
    (hn : source.size = .ok n) (hl : ∀ m ∈ limit, (n : ℤ) ≤ m)
    (hb : readAll source.first = .ok b) (hb' : readAll source.second = .ok b')
    (hf : e.find? (Codec.sha256Hex b) = none) :
    e.addFile source limit =
      (if Intact ⟨Codec.sha256Hex b, b', named_sha256Hex b⟩ then .ok ⟨Codec.sha256Hex b, n⟩ else
        raise .evidenceStoreError "stored evidence failed its SHA-256 verification",
      e.replace ⟨Codec.sha256Hex b, b', named_sha256Hex b⟩) := by
  have hfind := find?_replace e ⟨Codec.sha256Hex b, b', named_sha256Hex b⟩
  rw [addFile_of_first hr hn hl hb, if_neg (by rw [hf]; decide), hb']
  dsimp only
  rw [checkStored_of_find? hfind]

theorem addFile_cases (e : EvidenceStore) (source : Source) (limit : Option ℤ) :
    (e.addFile source limit).2 = e ∨
      ∃ b b', source.Passes limit b b' ∧ e.find? (Codec.sha256Hex b) = none := by
  by_cases hr : source.regular = true
  swap
  · rw [addFile, if_pos (Bool.not_eq_true _ ▸ hr)]
    exact Or.inl rfl
  cases hn : source.size with
  | error exc =>
    rw [addFile, hr, if_neg (by decide), hn]
    exact Or.inl rfl
  | ok n =>
    by_cases hany : limit.any (· < (n : ℤ)) = true
    · rw [addFile, hr, if_neg (by decide), hn]
      dsimp only
      rw [if_pos hany]
      exact Or.inl rfl
    · have hl : ∀ m ∈ limit, (n : ℤ) ≤ m := by
        rintro m rfl
        simpa using hany
      cases hb : readAll source.first with
      | error exc =>
        rw [addFile, hr, if_neg (by decide), hn]
        dsimp only
        rw [if_neg hany, hb]
        exact Or.inl rfl
      | ok b =>
        cases hf : e.find? (Codec.sha256Hex b) with
        | some f =>
          rw [addFile_of_exists hr hn hl hb hf]
          exact Or.inl rfl
        | none =>
          cases hb' : readAll source.second with
          | error exc =>
            rw [addFile_of_first hr hn hl hb, if_neg (by rw [hf]; decide), hb']
            exact Or.inl rfl
          | ok b' => exact Or.inr ⟨b, b', ⟨hr, ⟨n, hn, hl⟩, hb, hb'⟩, hf⟩

theorem addsFile_iff : AddsFile e source limit ↔ Addable e source limit := by
  constructor
  · intro h
    constructor
    · intro b hb hl f hf
      obtain ⟨stored, e', hok, -⟩ := h.stored b hb hl
      rw [addFile_of_exists hb.regular hb.size hl hb.first hf] at hok
      by_contra hi
      rw [if_neg hi] at hok
      cases hok
    · intro b b' hp hf
      obtain ⟨n, hn, hl⟩ := hp.size
      have hrun := addFile_of_free hp.regular hn hl hp.first hp.second hf
      by_contra hne
      have hi : ¬Intact ⟨Codec.sha256Hex b, b', named_sha256Hex b⟩ := hne
      rw [if_neg hi] at hrun
      have hsame := h.unchanged _ _ hrun
      have hfind := find?_replace e ⟨Codec.sha256Hex b, b', named_sha256Hex b⟩
      rw [hsame, hf] at hfind
      cases hfind
  · intro h
    constructor
    · intro b hb hl
      cases hf : e.find? (Codec.sha256Hex b) with
      | some f =>
        have hi := h.intact b hb hl f hf
        have hrun := addFile_of_exists hb.regular hb.size hl hb.first hf
        rw [if_pos hi] at hrun
        exact ⟨_, _, hrun, verify_of_find? (validateDigest_sha256Hex b) hf hi⟩
      | none =>
        have hrun := addFile_of_free hb.regular hb.size hl hb.first hb.second hf
        have hi : Intact ⟨Codec.sha256Hex b, b, named_sha256Hex b⟩ := rfl
        have hfind := find?_replace e ⟨Codec.sha256Hex b, b, named_sha256Hex b⟩
        rw [if_pos hi] at hrun
        exact ⟨_, _, hrun, verify_of_find? (validateDigest_sha256Hex b) hfind hi⟩
    · intro exc e' herr
      rcases addFile_cases e source limit with hsame | ⟨b, b', hp, hf⟩
      · rw [herr] at hsame
        exact hsame
      · obtain ⟨n, hn, hl⟩ := hp.size
        have hi : Intact ⟨Codec.sha256Hex b, b', named_sha256Hex b⟩ := h.steady b b' hp hf
        rw [addFile_of_free hp.regular hn hl hp.first hp.second hf, if_pos hi] at herr
        cases herr

/-- Streams are always stored well; files exactly where no bad file stands under their digest and
a second reading that takes a free place has the digest of the first. -/
theorem writers_store_good : (∀ digest reads maxBytes expectedSize,
      StoresStream e digest reads maxBytes expectedSize) ∧
    (AddsFile e source limit ↔ Addable e source limit) :=
  ⟨fun _ _ _ _ => storesStream, addsFile_iff⟩

end EvidenceStore

section Witness

open EvidenceStore

/-- A file that was cut short after it had been stored under its digest. -/
def truncatedStore : EvidenceStore :=
  ⟨[⟨Codec.sha256Hex [104, 97, 112], [104], named_sha256Hex _⟩], List.nodup_singleton _⟩

def steadySource : EvidenceStore.Source := ⟨true, .ok 3, [.ok [104, 97, 112]], [.ok [104, 97, 112]]⟩

def changingSource : EvidenceStore.Source := ⟨true, .ok 3, [.ok [104, 97, 112]], [.ok [104]]⟩

theorem truncated_not_intact :
    ¬Intact ⟨Codec.sha256Hex [104, 97, 112], [104], named_sha256Hex _⟩ := by
  decide +kernel

/-- A steady source does not repair the truncated file, and a source that changes between the two
readings leaves a bad file behind. -/
theorem addFile_leaves_bad_bytes :
    (steadySource.Holds [104, 97, 112] ∧ EvidenceStore.addFile truncatedStore steadySource none =
      (raise .evidenceStoreError "stored evidence failed its SHA-256 verification",
        truncatedStore)) ∧
    EvidenceStore.addFile .empty changingSource none =
      (raise .evidenceStoreError "stored evidence failed its SHA-256 verification",
        truncatedStore) := by
  have hread : readAll [.ok [104, 97, 112]] = .ok [104, 97, 112] := rfl
  have hread' : readAll [.ok [104]] = .ok [104] := rfl
  have hfind : Table.find? truncatedStore (Codec.sha256Hex [104, 97, 112]) =
      some ⟨Codec.sha256Hex [104, 97, 112], [104], named_sha256Hex _⟩ :=
    Table.find?_eq_some.mpr ⟨List.mem_singleton_self _, rfl⟩
  have hfree : Table.find? (.empty : EvidenceStore) (Codec.sha256Hex [104, 97, 112]) = none := rfl
  refine ⟨⟨⟨rfl, rfl, hread, hread⟩, ?_⟩, ?_⟩
  · have hrun : EvidenceStore.addFile truncatedStore steadySource none = _ :=
      addFile_of_exists rfl rfl nofun hread hfind
    rwa [if_neg truncated_not_intact] at hrun
  · have hrun : EvidenceStore.addFile .empty changingSource none = _ :=
      addFile_of_free rfl rfl nofun hread hread' hfree
    rwa [if_neg truncated_not_intact] at hrun

end Witness

end HistoryAnchor

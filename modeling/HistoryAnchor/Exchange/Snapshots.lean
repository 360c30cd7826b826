import HistoryAnchor.Exchange.Serving
import HistoryAnchor.Protocol.Snapshots

/-! # Snapshots are imported row by row

The import of a snapshot commits every insert on its own and compares networks and
points only when it comes to the anchors, so a valid snapshot may be imported in
part. Which snapshots are imported as a whole, and which not at all, is decided by
the store before the import.
-/

namespace HistoryAnchor

open Python Effects Prog Tables

section Import

variable [Ed25519] {rpcAnswers : Answers} {s t u : Store}

def Anchor.Fits (a : Anchor) : Prop :=
  sqliteInt a.vout ∧ sqliteInt a.anchoredAt ∧ sqliteInt (a.blockHeight.getD 0)

instance (a : Anchor) : Decidable a.Fits := inferInstanceAs (Decidable (_ ∧ _))

def refPoint (anchor : Json) : Point := (anchor.text "txid", anchor.nat "vout")

namespace Store

/-- A reference is accepted: it is on the network of its batch, and its point is free or holds this
very batch. -/
structure Accepts (s : Store) (anchor : Json) : Prop where
  network : ∀ b ∈ s.batches, b.batchId = anchor.text "batch_id" →
    anchor.text "network" = b.network
  point : ∀ row, s.anchors.find? (refPoint anchor) = some row →
    row.batchId = anchor.text "batch_id"

def Holds (s : Store) (anchor : Json) : Prop :=
  s.anchors.find? (refPoint anchor) =
    some (Service.localReference anchor (s.anchors.find? (refPoint anchor)))

/-- The first reference that is not accepted comes after references that change nothing. -/
def Inert (s : Store) (accepts : Json → Prop) : List Json → Prop
  | [] => False
  | anchor :: rest => ¬ accepts anchor ∨ (s.Holds anchor ∧ s.Inert accepts rest)

theorem inert_congr {accepts accepts' : Json → Prop} {as : List Json}
    (h : ∀ a ∈ as, (accepts a ↔ accepts' a) ∧ (s.Holds a ↔ t.Holds a)) :
    s.Inert accepts as ↔ t.Inert accepts' as := by
  induction as with
  | nil => rfl
  | cons a as ih =>
    obtain ⟨⟨ha, hh⟩, hrest⟩ := List.forall_mem_cons.mp h
    rw [Inert, Inert, ha, hh, ih hrest]

/-- The import of references has changed only anchors at their points. -/
structure Refers (s t : Store) (as : List Json) : Prop where
  records : t.records = s.records
  batches : t.batches = s.batches
  recordBatches : t.recordBatches = s.recordBatches
  other : ∀ p ∉ as.map refPoint, t.anchors.find? p = s.anchors.find? p

end Store

namespace Service

omit [Ed25519] in
theorem localReference_fits {a : Json} {existing : Option Anchor}
    (ha : ∀ k n, a.get k = some (.int n) → sqliteInt n)
    (hrow : ∀ row, existing = some row → row.Fits) : (localReference a existing).Fits := by
  have hnat : ∀ k, sqliteInt (a.nat k) := by
    intro k
    unfold Json.nat
    split
    · rename_i n hn
      have h := ha k n hn
      unfold sqliteInt at h ⊢
      omega
    · decide
  have hheight : sqliteInt ((localReference a none).blockHeight.getD 0) := by
    simp only [localReference]
    split
    · rename_i n hn
      exact ha _ n hn
    · decide
  unfold localReference
  cases existing with
  | none => exact ⟨hnat _, hnat _, hheight⟩
  | some row =>
    dsimp only
    split_ifs
    · exact ⟨hnat _, hnat _, hheight⟩
    · exact ⟨hnat _, (hrow row rfl).2⟩

/-- A valid reference whose batch is stored is stored exactly if it is accepted. -/
theorem importAnchorReference_alone {a : Json} {Q : Py Status → Store → Prop}
    (hv : Anchors.validateAnchorReference a = .ok ())
    (hfits : (localReference a (s.anchors.find? (refPoint a))).Fits)
    (hbatch : ∃ b ∈ s.batches, b.batchId = a.text "batch_id")
    (done : s.Accepts a → ∀ status h,
      Q (.ok status) (s.upsertAnchor (localReference a (s.anchors.find? (refPoint a))) h))
    (failed : ¬ s.Accepts a → ∀ e, Q (.error e) s) :
    (importAnchorReference a).Alone (environment rpcAnswers) (fun _ => True) Q s := by
  obtain ⟨b, hb, hid⟩ := hbatch
  have hfind : s.batches.find? (a.text "batch_id") = some b := Table.find?_eq_some.mpr ⟨hb, hid⟩
  have hpoint : s.anchor (a.text "txid", a.nat "vout") = .ok (s.anchors.find? (refPoint a)) := by
    have hvout := hfits.1
    rw [show (localReference a _).vout = _ from
      congrArg Prod.snd (localReference_point a _)] at hvout
    exact if_pos hvout
  simp only [importAnchorReference, wrapped, check, hv, rethrow, bind_eq, Alone, ensures_bind,
    ensures_ofExcept, thenOk_ok, storage_ensures, forall_eq', Store.run, hfind, true_and, require]
  by_cases hnetwork : a.text "network" = b.network
  · have hnet : ∀ b' ∈ s.batches, b'.batchId = a.text "batch_id" →
        a.text "network" = b'.network := fun b' hb' hid' =>
      Table.eq_of_key hb hb' (hid.trans hid'.symm) ▸ hnetwork
    simp only [if_pos hnetwork, thenOk_ok, ensures_bind, storage_ensures, forall_eq', Store.run,
      hpoint, ensures_ofExcept, true_and]
    by_cases hsame : (s.anchors.find? (refPoint a)).all (fun row => row.batchId = a.text "batch_id")
    · have hrow : ∀ row, s.anchors.find? (refPoint a) = some row →
          row.batchId = a.text "batch_id" := by
        intro row hr
        rw [hr] at hsame
        exact of_decide_eq_true hsame
      have hid' : ∃ b ∈ s.batches,
          b.batchId = (localReference a (s.anchors.find? (refPoint a))).batchId :=
        ⟨b, hb, hid.trans (localReference_batchId a _).symm⟩
      have hadd : s.addAnchor (localReference a (s.anchors.find? (refPoint a))) =
          (.ok (s.anchors.find? (localReference a (s.anchors.find? (refPoint a))).point).isNone,
            s.upsertAnchor (localReference a (s.anchors.find? (refPoint a))) hid') :=
        (if_pos hfits).trans (dif_pos hid')
      simp only [if_pos hsame, thenOk_ok, ensures_bind, storage_ensures, forall_eq', Store.run,
        hadd, true_and]
      exact done ⟨hnet, hrow⟩ _ hid'
    · rw [if_neg hsame]
      apply failed
      intro h
      apply hsame
      cases hr : s.anchors.find? (refPoint a) with
      | none => rfl
      | some row => exact decide_eq_true (h.point row hr)
  · rw [if_neg hnetwork]
    exact failed (fun h => hnetwork (h.network b hb hid)) _

/-- References are stored one after another up to the first that is not accepted. -/
theorem importAnchors_alone {as : List Json} {n : ℕ} {Q : Py ℕ → Store → Prop}
    (hv : ∀ a ∈ as, Anchors.validateAnchorReference a = .ok ())
    (hn : (as.map refPoint).Nodup)
    (hfits : ∀ a ∈ as, (localReference a (s.anchors.find? (refPoint a))).Fits)
    (hbatch : ∀ a ∈ as, ∃ b ∈ s.batches, b.batchId = a.text "batch_id")
    (done : ∀ n t, s.Refers t as → (∀ a ∈ as, s.Accepts a) →
      (∀ a ∈ as, t.anchors.find? (refPoint a) =
        some (localReference a (s.anchors.find? (refPoint a)))) → Q (.ok n) t)
    (failed : ∀ e t, s.Refers t as → (¬ ∀ a ∈ as, s.Accepts a) →
      (t.anchors = s.anchors ↔ s.Inert s.Accepts as) → Q (.error e) t) :
    (as.foldlM (fun (n : ℕ) v => do
      let status ← importAnchorReference v
      return if status = Status.accepted then n + 1 else n) n).Ensures (environment rpcAnswers) Eq
        (fun _ _ => True) Q s := by
  induction as generalizing s n with
  | nil =>
    exact done n s ⟨rfl, rfl, rfl, fun _ _ => rfl⟩ (fun _ h => absurd h List.not_mem_nil)
      fun _ h => absurd h List.not_mem_nil
  | cons a as ih =>
    obtain ⟨hva, hvas⟩ := List.forall_mem_cons.mp hv
    obtain ⟨hfa, hfas⟩ := List.forall_mem_cons.mp hfits
    obtain ⟨hba, hbas⟩ := List.forall_mem_cons.mp hbatch
    rw [List.map_cons, List.nodup_cons] at hn
    obtain ⟨hnew, hn⟩ := hn
    simp only [List.foldlM_cons, bind_eq, ensures_bind]
    apply importAnchorReference_alone hva hfa hba
    · intro hacc status h
      set ref := localReference a (s.anchors.find? (refPoint a)) with href
      have hkey : ref.point = refPoint a := localReference_point a _
      have hother : ∀ p, p ≠ refPoint a →
          (s.upsertAnchor ref h).anchors.find? p = s.anchors.find? p := fun p hp =>
        Table.find?_upsert_of_ne (hkey.symm ▸ hp)
      have hself : (s.upsertAnchor ref h).anchors.find? (refPoint a) = some ref :=
        Table.find?_eq_some.mpr ⟨Table.mem_upsert_new, hkey⟩
      have hfind : ∀ x ∈ as,
          (s.upsertAnchor ref h).anchors.find? (refPoint x) = s.anchors.find? (refPoint x) :=
        fun x hx => hother _ fun he => hnew (he ▸ List.mem_map_of_mem hx)
      have hsame : ∀ x ∈ as, ((s.upsertAnchor ref h).Accepts x ↔ s.Accepts x) ∧
          ((s.upsertAnchor ref h).Holds x ↔ s.Holds x) := by
        intro x hx
        constructor
        · constructor
          · exact fun hx' => ⟨hx'.network, fun row hr => hx'.point row ((hfind x hx).trans hr)⟩
          · exact fun hx' => ⟨hx'.network, fun row hr => hx'.point row ((hfind x hx).symm.trans hr)⟩
        · rw [Store.Holds, Store.Holds, hfind x hx]
      have hrefers : ∀ t, (s.upsertAnchor ref h).Refers t as → s.Refers t (a :: as) := by
        intro t ht
        refine ⟨ht.records, ht.batches, ht.recordBatches, fun p hp => ?_⟩
        rw [List.map_cons, List.mem_cons, not_or] at hp
        exact (ht.other p hp.2).trans (hother p hp.1)
      simp only [thenOk_ok]
      apply ih hvas hn
      · intro x hx
        rw [hfind x hx]
        exact hfas x hx
      · exact hbas
      · intro n t ht hall hrows
        refine done n t (hrefers t ht) ?_ ?_
        · exact List.forall_mem_cons.mpr ⟨hacc, fun x hx => (hsame x hx).1.mp (hall x hx)⟩
        · refine List.forall_mem_cons.mpr ⟨(ht.other _ hnew).trans hself, fun x hx => ?_⟩
          rw [hrows x hx, hfind x hx]
      · intro e t ht hnot hinert
        refine failed e t (hrefers t ht) ?_ ?_
        · exact fun hall => hnot fun x hx =>
            (hsame x hx).1.mpr (hall x (List.mem_cons_of_mem a hx))
        · rw [Store.Inert, Store.inert_congr (t := s.upsertAnchor ref h) fun x hx =>
            ⟨(hsame x hx).1.symm, (hsame x hx).2.symm⟩, ← hinert]
          -- The row at the point of `a` stays as the import of `a` has left it.
          have hrow : t.anchors.find? (refPoint a) = some ref := (ht.other _ hnew).trans hself
          have hholds : s.Holds a ↔ (s.upsertAnchor ref h).anchors = s.anchors := by
            rw [Store.Holds, ← href]
            exact (Table.find?_eq_some.trans (and_iff_left hkey)).trans
              Table.upsert_eq_self_iff.symm
          constructor
          · intro he
            have ha : s.Holds a := by
              rw [he] at hrow
              exact hrow
            exact Or.inr ⟨ha, he.trans (hholds.mp ha).symm⟩
          · rintro (hnot | ⟨ha, he⟩)
            · exact absurd hacc hnot
            · exact he.trans (hholds.mp ha)
    · intro hacc e
      refine failed e s ⟨rfl, rfl, rfl, fun _ _ => rfl⟩ ?_ ?_
      · exact fun hall => hacc (hall a List.mem_cons_self)
      · exact iff_of_true rfl (Or.inl hacc)

theorem importBatches_alone {bs : List Batch} {n : ℕ} {Q : Py ℕ → Store → Prop}
    (hhas : ∀ b ∈ bs, ∀ r ∈ b.recordIds, s.Has r)
    (done : ∀ n t, t.records = s.records → t.anchors = s.anchors →
      t.batches = s.batches.insertAll bs →
      t.recordBatches = s.recordBatches.insertAll (bs.flatMap Store.linksOf) → Q (.ok n) t) :
    ((bs.map Batch.body).foldlM (fun (n : ℕ) v => do
      let status ← importBatch v
      return if status = Status.accepted then n + 1 else n) n).Ensures (environment rpcAnswers) Eq
        (fun _ _ => True) Q s := by
  induction bs generalizing s n with
  | nil => exact done n s rfl rfl rfl rfl
  | cons b bs ih =>
    obtain ⟨hb, hbs⟩ := List.forall_mem_cons.mp hhas
    simp only [List.map_cons, List.foldlM_cons, bind_eq, ensures_bind]
    apply importBatch_alone
    · intro hv h status _
      simp only [thenOk_ok]
      apply ih (s := s.insertBatch b h) hbs
      intro n t hr ha hbatches hlinks
      apply done n t hr ha hbatches
      rw [hlinks, List.flatMap_cons, Table.insertAll_append]
      rfl
    · exact fun hnone => absurd hb (hnone b.valid)

end Service

namespace Store

/-- A reference of a snapshot is accepted: it is on the network of the batch that is stored under
its identifier, or else of the one in the snapshot, and its point is free or holds this batch. -/
structure AcceptsWith (s : Store) (bs : List Json) (anchor : Json) : Prop where
  stored : ∀ b ∈ s.batches, b.batchId = anchor.text "batch_id" → anchor.text "network" = b.network
  listed : (∀ b ∈ s.batches, b.batchId ≠ anchor.text "batch_id") →
    ∀ b ∈ bs, b.text "batch_id" = anchor.text "batch_id" → anchor.text "network" = b.text "network"
  point : ∀ row, s.anchors.find? (refPoint anchor) = some row →
    row.batchId = anchor.text "batch_id"

/-- The records, the batches and their links are stored. -/
structure Contains (s : Store) (rs bs : List Json) : Prop where
  records : ∀ r ∈ rs, s.Has (r.text "record_id")
  batches : ∀ b ∈ bs, ∃ row ∈ s.batches, row.batchId = b.text "batch_id"
  links : ∀ b ∈ bs, ∀ r ∈ b.items "record_ids", ∃ l ∈ s.recordBatches,
    l.recordId = r.strValue ∧ l.batchId = b.text "batch_id"

/-- The snapshot is imported as a whole or not at all: it is invalid; or the records that do not
wait for each other are stored already; or every record can be stored and every anchor is accepted;
or everything before the first anchor that is not accepted is there already. -/
def Atomic (s : Store) (snapshot : Json) : Prop :=
  Archive.validateSnapshot snapshot ≠ .ok () ∨
  ((∃ r, Stuck s.Has (snapshot.items "records") r) ∧ ∀ r ∈ snapshot.items "records",
    Stuck s.Has (snapshot.items "records") r ∨ s.Has (r.text "record_id")) ∨
  ((∀ r, ¬ Stuck s.Has (snapshot.items "records") r) ∧
    ((∀ a ∈ snapshot.items "anchors", s.AcceptsWith (snapshot.items "batches") a) ∨
      (s.Contains (snapshot.items "records") (snapshot.items "batches") ∧
        s.Inert (s.AcceptsWith (snapshot.items "batches")) (snapshot.items "anchors"))))

theorem accepts_of_insertAll {bs : List Batch} (hn : (bs.map Batch.batchId).Nodup)
    (hb : t.batches = s.batches.insertAll bs) (ha : t.anchors = s.anchors) (a : Json) :
    t.Accepts a ↔ s.AcceptsWith (bs.map Batch.body) a := by
  have hmem : ∀ b, b ∈ t.batches ↔ b ∈ s.batches ∨ b ∈ bs ∧ ∀ c ∈ s.batches,
      c.batchId ≠ b.batchId := by
    intro b
    rw [hb]
    exact Table.mem_insertAll_of_nodup hn
  constructor
  · intro h
    constructor
    · exact fun b hb => h.network b ((hmem b).mpr (Or.inl hb))
    · intro hnone v hv hid
      obtain ⟨b, hb, rfl⟩ := List.mem_map.mp hv
      exact h.network b ((hmem b).mpr (Or.inr ⟨hb, fun c hc he => hnone c hc (he.trans hid)⟩)) hid
    · exact fun row hr => h.point row (ha ▸ hr)
  · intro h
    constructor
    · intro b hb hid
      rcases (hmem b).mp hb with hb | ⟨hb, hnew⟩
      · exact h.stored b hb hid
      · exact h.listed (fun c hc he => hnew c hc (he.trans hid.symm)) b.body
          (List.mem_map_of_mem hb) hid
    · exact fun row hr => h.point row (ha ▸ hr)

/-- The records are as before exactly if those that were stored were stored already. -/
theorem Adds.records_eq_iff {S : Set Json} (h : s.Adds t S)
    (hall : ∀ r ∈ S, t.Has (r.text "record_id")) :
    t.records = s.records ↔ ∀ r ∈ S, s.Has (r.text "record_id") := by
  constructor
  · intro he r hr
    have ht := hall r hr
    rwa [Has, he] at ht
  · exact h.same

/-- The links of batches are as before exactly if there is one for each listed record. -/
theorem insertAll_linksOf_eq_iff {bs : List Batch} :
    s.recordBatches.insertAll (bs.flatMap linksOf) = s.recordBatches ↔
      ∀ b ∈ bs.map Batch.body, ∀ r ∈ b.items "record_ids", ∃ l ∈ s.recordBatches,
        l.recordId = r.strValue ∧ l.batchId = b.text "batch_id" := by
  rw [Table.insertAll_eq_self_iff]
  constructor
  · intro h v hv r hr
    obtain ⟨b, hb, rfl⟩ := List.mem_map.mp hv
    obtain ⟨l, hl, hid, hbid⟩ := exists_mem_linksOf (b := b) (List.mem_map_of_mem hr)
    obtain ⟨l', hl', he⟩ := h l (List.mem_flatMap.mpr ⟨b, hb, hl⟩)
    obtain ⟨h₁, h₂⟩ := Prod.mk.inj he
    exact ⟨l', hl', h₁.trans hid, h₂.trans hbid⟩
  · intro h l hl
    obtain ⟨b, hb, hl⟩ := List.mem_flatMap.mp hl
    obtain ⟨hr, hbid⟩ := mem_linksOf hl
    obtain ⟨r, hr, hid⟩ := List.mem_map.mp hr
    obtain ⟨l', hl', h₁, h₂⟩ := h b.body (List.mem_map_of_mem hb) r hr
    exact ⟨l', hl', Prod.ext (h₁.trans hid) (h₂.trans hbid.symm)⟩

/-- The tables of an import are as before exactly if all that it stores was stored already. -/
theorem contains_iff {rs : List Json} {bs : List Batch} (hadds : s.Adds t {r | r ∈ rs})
    (hall : ∀ r ∈ rs, t.Has (r.text "record_id")) (hr : u.records = t.records)
    (hb : u.batches = s.batches.insertAll bs)
    (hl : u.recordBatches = s.recordBatches.insertAll (bs.flatMap linksOf)) :
    (u.records = s.records ∧ u.batches = s.batches ∧ u.recordBatches = s.recordBatches) ↔
      s.Contains rs (bs.map Batch.body) := by
  rw [hr, hb, hl, hadds.records_eq_iff hall, insertAll_linksOf_eq_iff, Table.insertAll_eq_self_iff]
  constructor
  · rintro ⟨hrecords, hbatches, hlinks⟩
    refine ⟨hrecords, fun v hv => ?_, hlinks⟩
    obtain ⟨b, hb, rfl⟩ := List.mem_map.mp hv
    exact hbatches b hb
  · rintro ⟨hrecords, hbatches, hlinks⟩
    exact ⟨hrecords, fun b hb => hbatches b.body (List.mem_map_of_mem hb), hlinks⟩

theorem holds_congr (ha : t.anchors = s.anchors) (a : Json) : t.Holds a ↔ s.Holds a := by
  rw [Holds, Holds, ha]

end Store

/-- Every record, batch and anchor point of the snapshot is stored after a normal return, and after
an exception the four tables are as before. -/
def AllOrNothing (snapshot : Json) (s : Store) (r : Py (ℕ × ℕ × ℕ)) (s' : Store) : Prop :=
  match r with
  | .ok _ => (∀ record ∈ snapshot.items "records", s'.Has (record.text "record_id")) ∧
      (∀ batch ∈ snapshot.items "batches", ∃ b ∈ s'.batches, b.batchId = batch.text "batch_id") ∧
      ∀ anchor ∈ snapshot.items "anchors", ∃ row ∈ s'.anchors, row.point = refPoint anchor
  | .error _ => s'.records = s.records ∧ s'.batches = s.batches ∧
      s'.recordBatches = s.recordBatches ∧ s'.anchors = s.anchors

theorem validateSnapshot_ok {snapshot : Json} (h : Archive.validateSnapshot snapshot = .ok ()) :
    (∃ id, Archive.calculateSnapshotId snapshot = .ok id) ∧
      Archive.Contents (snapshot.items "records") (snapshot.items "batches")
        (snapshot.items "anchors") := by
  cases snapshot with
  | obj fields =>
    obtain ⟨-, -, -, -, -, ⟨id, hid, -⟩, hc⟩ := Archive.validateSnapshot_iff.mp h
    exact ⟨⟨id, hid⟩, hc⟩
  | _ => exact (raise_ne_ok h).elim

/-- The store after an import with everything that the snapshot holds. -/
structure Store.Imported (s t : Store) (rs : List Json) (bs : List Batch) (as : List Json) :
    Prop where
  kept : ∀ row ∈ s.records, row ∈ t.records
  new : ∀ row ∈ t.records, row ∈ s.records ∨ row.body ∈ rs
  has : ∀ r ∈ rs, t.Has (r.text "record_id")
  batches : t.batches = s.batches.insertAll bs
  other : ∀ p ∉ as.map refPoint, t.anchors.find? p = s.anchors.find? p
  anchors : ∀ a ∈ as, t.anchors.find? (refPoint a) =
    some (Service.localReference a (s.anchors.find? (refPoint a)))

/-- The import of a valid snapshot stores everything, or raises over the first anchor that is not
accepted, or over records that wait for each other. -/
theorem importSnapshot_of {snapshot : Json} {bs : List Batch} {Q : Py (ℕ × ℕ × ℕ) → Store → Prop}
    (hval : Archive.validateSnapshot snapshot = .ok ())
    (hbs : bs.map Batch.body = snapshot.items "batches") (hfits : ∀ a ∈ s.anchors, a.Fits)
    (done : (∀ r, ¬ Stuck s.Has (snapshot.items "records") r) →
      (∀ a ∈ snapshot.items "anchors", s.AcceptsWith (snapshot.items "batches") a) → ∀ x t,
        s.Imported t (snapshot.items "records") bs (snapshot.items "anchors") → Q (.ok x) t)
    (refused : (∀ r, ¬ Stuck s.Has (snapshot.items "records") r) →
      (¬ ∀ a ∈ snapshot.items "anchors", s.AcceptsWith (snapshot.items "batches") a) → ∀ e t,
        ((t.records = s.records ∧ t.batches = s.batches ∧ t.recordBatches = s.recordBatches) ↔
          s.Contains (snapshot.items "records") (snapshot.items "batches")) →
        (t.anchors = s.anchors ↔
          s.Inert (s.AcceptsWith (snapshot.items "batches")) (snapshot.items "anchors")) →
        Q (.error e) t)
    (stuck : (∃ r, Stuck s.Has (snapshot.items "records") r) → ∀ e t,
      s.Adds t {r | r ∈ snapshot.items "records" ∧ ¬ Stuck s.Has (snapshot.items "records") r} →
      (∀ r ∈ snapshot.items "records", Stuck s.Has (snapshot.items "records") r ∨
        t.Has (r.text "record_id")) → Q (.error e) t) :
    (Service.importSnapshot snapshot).Alone (environment rpcAnswers) (fun _ => True) Q s := by
  obtain ⟨⟨id, hid⟩, hc⟩ := validateSnapshot_ok hval
  simp only [Service.importSnapshot, bind_eq, Alone, ensures_bind, ensures_ofExcept, hval, thenOk_ok]
  generalize hrs : snapshot.items "records" = rs at *
  generalize has : snapshot.items "anchors" = as at *
  rw [← hbs] at hc done refused ⊢
  apply Service.importPending_alone hc.records hc.recordIds (s.importing_start rs) le_rfl
  · intro n t hfree hadds hall
    have hhas : ∀ b ∈ bs, ∀ r ∈ b.recordIds, t.Has r := by
      intro b hb r hr
      obtain ⟨x, hx, rfl⟩ := List.mem_map.mp hr
      obtain ⟨record, hrecord, he⟩ := List.mem_map.mp
        (hc.listed b.body (List.mem_map_of_mem hb) x hx)
      exact he ▸ hall record hrecord
    simp only [thenOk_ok, Service.countAccepted, ensures_bind]
    apply Service.importBatches_alone hhas
    intro n' u hrecords hanchors hbatches hlinks
    rw [hadds.batches] at hbatches
    rw [hadds.anchors] at hanchors
    rw [hadds.recordBatches] at hlinks
    have hids : (bs.map Batch.batchId).Nodup := by
      have hn := hc.batchIds
      rw [List.map_map] at hn
      exact hn
    simp only [thenOk_ok, ensures_bind]
    have haccepts : ∀ a, u.Accepts a ↔ s.AcceptsWith (bs.map Batch.body) a :=
      Store.accepts_of_insertAll hids hbatches hanchors
    apply Service.importAnchors_alone hc.anchors hc.points
    · intro a ha
      apply Service.localReference_fits
      · intro k m hm
        have hsafe := Archive.anchor_int_safe hid (has ▸ ha) hm
        unfold Codec.maxSafeJsonInteger at hsafe
        unfold sqliteInt
        omega
      · intro row hrow
        rw [hanchors] at hrow
        exact hfits row (Table.find?_eq_some.mp hrow).1
    · intro a ha
      obtain ⟨v, hv, he⟩ := List.mem_map.mp (hc.anchored a ha)
      obtain ⟨b, hb, rfl⟩ := List.mem_map.mp hv
      obtain ⟨row, hrow, hk⟩ := Table.exists_mem_insertAll (t := s.batches) hb
      exact ⟨row, hbatches ▸ hrow, hk.trans he⟩
    · intro m v hv hacc hrows
      apply done hfree fun a ha => (haccepts a).mp (hacc a ha)
      have hvrecords : v.records = t.records := hv.records.trans hrecords
      constructor
      · exact fun row hrow => hvrecords ▸ hadds.kept row hrow
      · exact fun row hrow => hadds.new row (hvrecords ▸ hrow)
      · intro r hr
        have ht := hall r hr
        rwa [Store.Has, ← hvrecords] at ht
      · exact hv.batches.trans hbatches
      · intro p hp
        rw [hv.other p hp, hanchors]
      · intro a ha
        rw [hrows a ha, hanchors]
    · intro e v hv hnot hinert
      have hrefused : ¬ ∀ a ∈ as, s.AcceptsWith (bs.map Batch.body) a := fun h =>
        hnot fun a ha => (haccepts a).mpr (h a ha)
      apply refused hfree hrefused
      · exact Store.contains_iff hadds hall (hv.records.trans hrecords)
          (hv.batches.trans hbatches) (hv.recordBatches.trans hlinks)
      · rw [← hanchors, hinert]
        exact Store.inert_congr fun a _ => ⟨haccepts a, Store.holds_congr hanchors a⟩
  · exact fun t hstuck hadds hall => stuck hstuck _ t hadds hall

theorem importSnapshot_alone {snapshot : Json} (hfits : ∀ a ∈ s.anchors, a.Fits) :
    (Service.importSnapshot snapshot).Alone (environment rpcAnswers) (fun _ => True)
      (fun r s' => AllOrNothing snapshot s r s' ↔ s.Atomic snapshot) s := by
  cases hval : Archive.validateSnapshot snapshot with
  | error e =>
    simp only [Service.importSnapshot, bind_eq, Alone, ensures_bind, ensures_ofExcept, hval]
    refine iff_of_true ⟨rfl, rfl, rfl, rfl⟩ (Or.inl ?_)
    rw [hval]
    nofun
  | ok _ =>
    have hc := (validateSnapshot_ok hval).2
    obtain ⟨bs, hbs⟩ : ∃ bs : List Batch, bs.map Batch.body = snapshot.items "batches" :=
      ⟨(snapshot.items "batches").pmap Batch.mk hc.batches, by simp [List.map_pmap]⟩
    rw [Store.Atomic, or_iff_right (not_not_intro hval)]
    apply importSnapshot_of hval hbs hfits
    · intro hfree hacc x t ht
      refine iff_of_true ⟨ht.has, ?_, ?_⟩ (Or.inr ⟨hfree, Or.inl hacc⟩)
      · rw [← hbs]
        intro v hv
        obtain ⟨b, hb, rfl⟩ := List.mem_map.mp hv
        obtain ⟨row, hrow, hk⟩ := Table.exists_mem_insertAll (t := s.batches) hb
        exact ⟨row, by rw [ht.batches]; exact hrow, hk⟩
      · exact fun a ha => ⟨_, Table.find?_eq_some.mp (ht.anchors a ha)⟩
    · intro hfree hrefused e t hcontains hinert
      have hstuck : ¬ ∃ r, Stuck s.Has (snapshot.items "records") r := fun ⟨r, hr⟩ => hfree r hr
      rw [or_iff_right fun h => hstuck h.1, and_iff_right hfree, or_iff_right hrefused,
        ← hcontains, ← hinert]
      constructor
      · rintro ⟨h₁, h₂, h₃, h₄⟩
        exact ⟨⟨h₁, h₂, h₃⟩, h₄⟩
      · rintro ⟨⟨h₁, h₂, h₃⟩, h₄⟩
        exact ⟨h₁, h₂, h₃, h₄⟩
    · intro hstuck e t hadds hall
      have hnot : ¬ ∀ r, ¬ Stuck s.Has (snapshot.items "records") r := fun h =>
        hstuck.elim fun r hr => h r hr
      rw [or_iff_left fun h => hnot h.1, and_iff_right hstuck]
      have hrecords := hadds.records_eq_iff fun r hr => (hall r hr.1).resolve_left hr.2
      constructor
      · intro h r hr
        by_cases hs : Stuck s.Has (snapshot.items "records") r
        · exact Or.inl hs
        · exact Or.inr (hrecords.mp h.1 r ⟨hr, hs⟩)
      · intro h
        refine ⟨hrecords.mpr fun r hr => (h r hr.1).resolve_left hr.2, ?_⟩
        exact ⟨hadds.batches, hadds.recordBatches, hadds.anchors⟩

theorem exists_of_not_atomic {snapshot : Json} (c : Chain) (hfits : ∀ a ∈ s.anchors, a.Fits)
    (h : ¬ s.Atomic snapshot) :
    ∃ r s', (Service.importSnapshot snapshot).Exec (environment c.truthful) s r s' ∧
      ¬ AllOrNothing snapshot s r s' := by
  have hx := exec_eval (H := environment c.truthful) (c.obeys_oracle fun _ _ _ => rfl)
    (Service.importSnapshot snapshot) s
  have hiff := Ensures.exec (fun _ => rfl) (importSnapshot_alone hfits) hx
  exact ⟨_, _, hx, fun hall => h (hiff.mp hall)⟩

/-- The import of a snapshot stores all of it or raises with the tables as before exactly if the
store before it admits the snapshot as a whole, or nothing of it. -/
theorem import_snapshot_atomic_iff {snapshot : Json} (c : Chain) (hfits : ∀ a ∈ s.anchors, a.Fits) :
    (∀ r s', (Service.importSnapshot snapshot).Exec (environment c.truthful) s r s' →
      AllOrNothing snapshot s r s') ↔ s.Atomic snapshot := by
  constructor
  · intro h
    by_contra hatomic
    obtain ⟨r, s', hx, hn⟩ := exists_of_not_atomic c hfits hatomic
    exact hn (h r s' hx)
  · intro h r s' hx
    exact (Ensures.exec (fun _ => rfl) (importSnapshot_alone hfits) hx).mpr h

end Import

section Witness

attribute [local instance] conformanceKeys

/-- A reference to the batch of the conformance vector, on another network than the batch. -/
def crossedReference : Json :=
  .obj [
    ("txid", .str "fe4fd10287faaea0736fe25fb849264527c0387bc8968786a9c19d8fa5aefeb5"),
    ("vout", .int 0),
    ("batch_id", .str "5ca8c08e0aefbc9ecced864f9499b9f7c2b8af326257f6de2f9dd5488ba356fd"),
    ("network", .str "mainnet"), ("status", .str "confirmed"), ("anchored_at", .int 0),
    ("block_hash", .null), ("block_height", .null)]

def crossedSnapshotBody : List (PyStr × Json) :=
  [("schema", .str "hap.snapshot"), ("version", .int 1), ("created_at", .int 0),
   ("records", .arr [conformanceRecord]), ("batches", .arr [conformanceBatch]),
   ("anchors", .arr [crossedReference])]

def crossedSnapshotId : List (PyStr × Json) :=
  [("snapshot_id",
    .str ((Archive.calculateSnapshotId (.obj crossedSnapshotBody)).toOption.getD []))]

def crossedSnapshot : Json := .obj (crossedSnapshotBody ++ crossedSnapshotId)

theorem crossedSnapshot_valid : Archive.validateSnapshot crossedSnapshot = .ok () := by
  have hsome : (Codec.canonicalJsonBytes (.obj crossedSnapshotBody)).toOption.isSome := by
    decide +kernel
  have hbody : Archive.snapshotBody crossedSnapshot = .obj crossedSnapshotBody := rfl
  have hbody' : Archive.snapshotBody (.obj crossedSnapshotBody) = .obj crossedSnapshotBody := rfl
  obtain ⟨id, hid⟩ : ∃ id, Archive.calculateSnapshotId (.obj crossedSnapshotBody) = .ok id := by
    cases hb : Codec.canonicalJsonBytes (.obj crossedSnapshotBody) with
    | error e => rw [hb] at hsome; cases hsome
    | ok bytes => exact ⟨_, bind_ok.mpr ⟨bytes, hb, rfl⟩⟩
  have hcrossed : Archive.calculateSnapshotId crossedSnapshot = .ok id := by
    rw [Archive.calculateSnapshotId, hbody, ← hbody']
    exact hid
  have hget : crossedSnapshot.getD "snapshot_id" .null = .str
      ((Archive.calculateSnapshotId (.obj crossedSnapshotBody)).toOption.getD []) := rfl
  apply Archive.validateSnapshot_iff.mpr
  refine ⟨by decide +kernel, by decide +kernel, by decide +kernel, by decide +kernel,
    by decide +kernel, ⟨id, hcrossed, ?_⟩, ?_⟩
  · rw [← crossedSnapshot, hget, hid]
    exact Batches.eqStr_iff.mpr rfl
  · constructor
    · exact fun r hr => List.mem_singleton.mp hr ▸ conformanceRecord_valid
    · exact List.nodup_singleton _
    · exact fun r hr => Or.inl (List.mem_singleton.mp hr ▸ rfl)
    · exact fun b hb => List.mem_singleton.mp hb ▸ conformanceBatch_valid
    · exact List.nodup_singleton _
    · decide +kernel
    · intro a ha
      rw [List.mem_singleton.mp ha]
      decide +kernel
    · exact List.nodup_singleton _
    · decide +kernel

theorem not_atomic_crossedSnapshot : ¬ Store.empty.Atomic crossedSnapshot := by
  have hrecords : crossedSnapshot.items "records" = [conformanceRecord] := rfl
  have hbatches : crossedSnapshot.items "batches" = [conformanceBatch] := rfl
  have hanchors : crossedSnapshot.items "anchors" = [crossedReference] := rfl
  rintro (hv | ⟨⟨r, hr⟩, -⟩ | ⟨-, h | ⟨h, -⟩⟩)
  · exact hv crossedSnapshot_valid
  · obtain ⟨hm, hne, -⟩ := hr.waits
    rw [hrecords] at hm
    exact hne (List.mem_singleton.mp hm ▸ rfl)
  · have ha := h crossedReference (by rw [hanchors]; exact List.mem_singleton_self _)
    have hn := ha.listed (fun b hb => absurd hb Table.not_mem_empty) conformanceBatch
      (by rw [hbatches]; exact List.mem_singleton_self _) (by decide +kernel)
    revert hn
    decide +kernel
  · obtain ⟨row, hrow, -⟩ := h.records conformanceRecord
      (by rw [hrecords]; exact List.mem_singleton_self _)
    exact absurd hrow Table.not_mem_empty

theorem rescanned_fits : ∀ a ∈ (rescanned sampleOld conformanceStore).anchors, a.Fits := by
  have h : ∀ a ∈ (rescanned sampleOld conformanceStore).anchors.rows, a.Fits := by
    decide +kernel
  exact h

theorem import_snapshot_atomic_iff_sample :
    (∀ r s', (Service.importSnapshot crossedSnapshot).Exec (environment sampleOld.truthful)
      (rescanned sampleOld conformanceStore) r s' →
      AllOrNothing crossedSnapshot (rescanned sampleOld conformanceStore) r s') ↔
      (rescanned sampleOld conformanceStore).Atomic crossedSnapshot :=
  import_snapshot_atomic_iff sampleOld rescanned_fits

/-- An empty node that imports the snapshot keeps its record and its batch and raises. -/
theorem crossed_snapshot_imported_in_part :
    ∃ r s', (Service.importSnapshot crossedSnapshot).Exec (environment sampleOld.truthful)
      .empty r s' ∧ ¬ AllOrNothing crossedSnapshot .empty r s' := by
  have hfits : ∀ a ∈ Store.empty.anchors, a.Fits := fun a ha => absurd ha Table.not_mem_empty
  exact exists_of_not_atomic sampleOld hfits not_atomic_crossedSnapshot

end Witness

end HistoryAnchor

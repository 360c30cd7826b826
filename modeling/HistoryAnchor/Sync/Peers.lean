import HistoryAnchor.Effects.Sessions
import HistoryAnchor.Exchange.Serving

/-! # A peer and the pages it serves

A peer numbers the rows of its tables in the order of their insertion and serves
them page by page. Rows of records and batches are only appended, so that whoever
has stored everything up to the number of some row has to look at later rows only.
-/

namespace HistoryAnchor

open Python Effects Prog Tables

inductive SyncKind
  | records | batches | anchors
  deriving DecidableEq

def SyncKind.path : SyncKind → PyStr
  | records => "/v1/sync/records"
  | batches => "/v1/sync/batches"
  | anchors => "/v1/sync/anchors"

/-- The largest `limit` that the endpoint takes. -/
def SyncKind.maxLimit : SyncKind → ℤ
  | records => 25
  | batches => 1
  | anchors => 200

def pageRows (rows : List (ℕ × Json)) (afterSeq limit : ℤ) : List (ℕ × Json) :=
  (rows.filter fun row => afterSeq < row.1).take limit.toNat

def pageCursor (page : List (ℕ × Json)) (afterSeq : ℤ) : ℤ :=
  (page.getLast?.map fun row => (row.1 : ℤ)).getD afterSeq

def syncPage (rows : List (ℕ × Json)) (kind : SyncKind) (afterSeq limit : ℤ) : Py Json := do
  require (0 ≤ afterSeq ∧ 1 ≤ limit ∧ limit ≤ kind.maxLimit) .requestError
    "422 Unprocessable Entity"
  let page := pageRows rows afterSeq limit
  return .obj [("items", .arr (page.map Prod.snd)),
    ("cursor", .obj [("seq", .int (pageCursor page afterSeq))]),
    ("has_more", .bool (page.length = limit))]

section Rows

variable {rows rows' : List (ℕ × Json)} {afterSeq limit : ℤ}

def Numbered (rows : List (ℕ × Json)) : Prop := (0 :: rows.map Prod.fst).Pairwise (· < ·)

def IsCursor (rows : List (ℕ × Json)) (seq : ℤ) : Prop :=
  seq = 0 ∨ ∃ row ∈ rows, (row.1 : ℤ) = seq

structure Synced (rows : List (ℕ × Json)) (stored : Json → Prop) (seq : ℤ) : Prop where
  cursor : IsCursor rows seq
  stored : ∀ row ∈ rows, (row.1 : ℤ) ≤ seq → stored row.2

theorem synced_zero {stored : Json → Prop} (h : Numbered rows) : Synced rows stored 0 := by
  refine ⟨Or.inl rfl, fun row hrow hle => ?_⟩
  have hpos := (List.pairwise_cons.mp h).1 row.1 (List.mem_map_of_mem hrow)
  omega

theorem lt_of_appended {seq : ℤ} (h : Numbered rows') (hp : rows <+: rows') (hc : IsCursor rows seq)
    {row : ℕ × Json} (hrow : row ∈ rows') (hnew : row ∉ rows) : seq < row.1 := by
  obtain ⟨new, rfl⟩ := hp
  have hmem : row ∈ new := (List.mem_append.mp hrow).resolve_left hnew
  obtain ⟨hpos, hsorted⟩ := List.pairwise_cons.mp h
  rcases hc with rfl | ⟨old, hold, rfl⟩
  · exact_mod_cast hpos row.1 (List.mem_map_of_mem hrow)
  · rw [List.map_append, List.pairwise_append] at hsorted
    exact_mod_cast hsorted.2.2 old.1 (List.mem_map_of_mem hold) row.1 (List.mem_map_of_mem hmem)

theorem IsCursor.mono {seq : ℤ} (hp : rows <+: rows') (h : IsCursor rows seq) :
    IsCursor rows' seq := by
  rcases h with rfl | ⟨row, hrow, he⟩
  · exact Or.inl rfl
  · exact Or.inr ⟨row, hp.subset hrow, he⟩

theorem Synced.mono {stored stored' : Json → Prop} {seq : ℤ} (h : Synced rows stored seq)
    (hn : Numbered rows') (hp : rows <+: rows') (hs : ∀ v, stored v → stored' v) :
    Synced rows' stored' seq := by
  refine ⟨h.cursor.mono hp, fun row hrow hle => hs _ ?_⟩
  by_cases hold : row ∈ rows
  · exact h.stored row hold hle
  · have hlt := lt_of_appended hn hp h.cursor hrow hold
    omega

/-- A page leaves out no row up to its cursor, and no row at all if it is not full. -/
structure Covers (rows page : List (ℕ × Json)) (afterSeq limit : ℤ) : Prop where
  subset : ∀ row ∈ page, row ∈ rows ∧ afterSeq < row.1
  upTo : ∀ row ∈ rows, (row.1 : ℤ) ≤ pageCursor page afterSeq →
    (row.1 : ℤ) ≤ afterSeq ∨ row ∈ page
  all : (page.length : ℤ) ≠ limit → ∀ row ∈ rows, (row.1 : ℤ) ≤ afterSeq ∨ row ∈ page

theorem covers_pageRows (hn : Numbered rows) (hlimit : 1 ≤ limit) :
    Covers rows (pageRows rows afterSeq limit) afterSeq limit := by
  set later := rows.filter fun row => afterSeq < row.1 with hlater
  have hmem : ∀ row, row ∈ later ↔ row ∈ rows ∧ afterSeq < row.1 := by
    intro row
    rw [hlater, List.mem_filter, decide_eq_true_eq]
  have hsorted : later.Pairwise fun x y => x.1 < y.1 :=
    (List.pairwise_map.mp (List.pairwise_cons.mp hn).2).sublist List.filter_sublist
  have hsplit : ∀ row ∈ rows, (row.1 : ℤ) ≤ afterSeq ∨ row ∈ pageRows rows afterSeq limit ∨
      row ∈ later.drop limit.toNat := by
    intro row hrow
    rcases le_or_gt (row.1 : ℤ) afterSeq with hle | hlt
    · exact Or.inl hle
    · have hl := (hmem row).mpr ⟨hrow, hlt⟩
      rw [← List.take_append_drop limit.toNat later, List.mem_append] at hl
      exact Or.inr hl
  constructor
  · exact fun row hrow => (hmem row).mp (List.mem_of_mem_take hrow)
  · intro row hrow hle
    rcases hsplit row hrow with h | h | h
    · exact Or.inl h
    · exact Or.inr h
    · -- A row after the page comes after its last row.
      exfalso
      rw [← List.take_append_drop limit.toNat later, List.pairwise_append] at hsorted
      rw [pageCursor] at hle
      cases hlast : (pageRows rows afterSeq limit).getLast? with
      | none =>
        have hempty := List.getLast?_eq_none_iff.mp hlast
        rw [pageRows, List.take_eq_nil_iff] at hempty
        rcases hempty with hzero | hnil
        · omega
        · rw [← hlater] at hnil
          rw [hnil, List.drop_nil] at h
          exact absurd h List.not_mem_nil
      | some last =>
        rw [hlast, Option.map_some, Option.getD_some] at hle
        have hlt := hsorted.2.2 last (List.mem_of_getLast? hlast) row h
        omega
  · intro hlen row hrow
    rcases hsplit row hrow with h | h | h
    · exact Or.inl h
    · exact Or.inr h
    · exfalso
      have hdrop := List.length_pos_of_mem h
      rw [List.length_drop] at hdrop
      rw [pageRows, ← hlater, List.length_take] at hlen
      omega

theorem isCursor_pageCursor {page : List (ℕ × Json)} (h : Covers rows page afterSeq limit)
    (hc : IsCursor rows afterSeq) : IsCursor rows (pageCursor page afterSeq) := by
  rw [pageCursor]
  cases hlast : page.getLast? with
  | none => exact hc
  | some last => exact Or.inr ⟨last, (h.subset last (List.mem_of_getLast? hlast)).1, rfl⟩

/-- Once the rows of a page are stored, everything up to its cursor is, whatever has been appended
since. -/
theorem Synced.advance {stored : Json → Prop} {page : List (ℕ × Json)}
    (hpage : Covers rows page afterSeq limit) (hc : IsCursor rows afterSeq) (hp : rows <+: rows')
    (hn : Numbered rows') (h : Synced rows' stored afterSeq)
    (hstored : ∀ row ∈ page, stored row.2) :
    Synced rows' stored (pageCursor page afterSeq) := by
  have hcursor := isCursor_pageCursor hpage hc
  refine ⟨hcursor.mono hp, fun row hrow hle => ?_⟩
  by_cases hold : row ∈ rows
  · rcases hpage.upTo row hold hle with hbefore | hin
    · exact h.stored row hrow hbefore
    · exact hstored row hin
  · have hlt := lt_of_appended hn hp hcursor hrow hold
    omega

end Rows

section Peer

variable [Ed25519] {s : Store}

/-- The rows of a table by `ingest_seq`, as they are served. -/
def Store.bodies (s : Store) : SyncKind → List Json
  | .records => s.records.rows.map Record.body
  | .batches => s.batches.rows.map Batch.body
  | .anchors => s.anchors.rows.map Anchor.json

namespace Store

theorem prefix_records_run {β : Type} (c : StorageCall β) :
    s.records.rows <+: (s.run c).2.records.rows := by
  cases c with
  | addRecord r => exact Table.prefix_insertIgnore
  | addBatch b =>
    simp only [run, records_addBatch]
    exact List.prefix_rfl
  | addAnchor a =>
    simp only [run, records_addAnchor]
    exact List.prefix_rfl
  | addScannedBlock row =>
    simp only [run, addScannedBlock]
    split_ifs <;> exact List.prefix_rfl
  | addCommitment c =>
    simp only [run, addCommitment]
    split_ifs <;> exact List.prefix_rfl
  | _ => exact List.prefix_rfl

theorem prefix_batches_run {β : Type} (c : StorageCall β) :
    s.batches.rows <+: (s.run c).2.batches.rows := by
  rcases run_batches (s := s) c with ⟨hb, -⟩ | ⟨b, hrec, -, he⟩
  · rw [hb]
  · rw [he]
    exact Table.prefix_insertIgnore

end Store

/-- A peer: its store and the numbers of the rows, which grow, perhaps with gaps. -/
structure Peer where
  store : Store
  seqs : SyncKind → List ℕ
  length_seqs : ∀ kind, (seqs kind).length = (store.bodies kind).length
  sorted : ∀ kind, (0 :: seqs kind).Pairwise (· < ·)
  closed : store.Closed

namespace Peer

variable {p q : Peer} {kind : SyncKind}

def served (p : Peer) (kind : SyncKind) : List (ℕ × Json) :=
  (p.seqs kind).zip (p.store.bodies kind)

/-- What the peer answers to `GET /v1/sync/…`. -/
def answer (p : Peer) (kind : SyncKind) (afterSeq limit : ℤ) : Py Json :=
  syncPage (p.served kind) kind afterSeq limit

/-- The peer makes a call to its storage; new rows get numbers after all others. -/
def Acts (p q : Peer) : Prop :=
  (∃ (β : Type) (c : StorageCall β), q.store = (p.store.run c).2) ∧
    ∀ kind, p.seqs kind <+: q.seqs kind

theorem numbered_served : Numbered (p.served kind) := by
  rw [Numbered, served, List.map_fst_zip (p.length_seqs kind).le]
  exact p.sorted kind

def Follows (p q : Peer) : Prop := ∀ kind ≠ .anchors, p.served kind <+: q.served kind

theorem follows_refl (p : Peer) : p.Follows p := fun _ _ => List.prefix_rfl

theorem Follows.trans {r : Peer} (h : p.Follows q) (h' : q.Follows r) : p.Follows r :=
  fun kind hkind => (h kind hkind).trans (h' kind hkind)

theorem Acts.follows (h : p.Acts q) : p.Follows q := by
  obtain ⟨⟨β, c, hs⟩, hseqs⟩ := h
  intro kind hkind
  have hbodies : p.store.bodies kind <+: q.store.bodies kind := by
    rw [hs]
    cases kind with
    | records => exact (Store.prefix_records_run c).map _
    | batches => exact (Store.prefix_batches_run c).map _
    | anchors => exact absurd rfl hkind
  obtain ⟨seqs, hseqs⟩ := hseqs kind
  obtain ⟨bodies, hbodies⟩ := hbodies
  rw [served, served, ← hseqs, ← hbodies, List.zip_append (p.length_seqs kind)]
  exact List.prefix_append _ _

theorem mem_bodies_of_served {row : ℕ × Json} (h : row ∈ p.served kind) :
    row.2 ∈ p.store.bodies kind := (List.of_mem_zip h).2

theorem exists_served {v : Json} (h : v ∈ p.store.bodies kind) :
    ∃ row ∈ p.served kind, row.2 = v := by
  rw [← List.map_snd_zip (p.length_seqs kind).ge] at h
  exact List.mem_map.mp h

end Peer

end Peer

end HistoryAnchor

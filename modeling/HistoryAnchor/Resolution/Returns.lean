import HistoryAnchor.Resolution.Peers
import HistoryAnchor.Scan.Failures
import HistoryAnchor.Scan.Format

/-! # When the resolver returns

After a download nothing catches exceptions any more: the import of the package and
the registration of its anchor end the whole call. What decides about them is the
table, the payloads of the stored batches and the stored records, and these are
followed from one examined row to the next.
-/

namespace HistoryAnchor

open Python Effects Prog Discovery Tables

/-- The keys of the table, the payloads of the stored batches and what records are stored. -/
structure View where
  keys : List RowKey
  payload : PyStr → Option PyStr
  has : PyStr → Prop

namespace View

/-- After the import of a package; a stored batch stays as it is. -/
def imported (v : View) (package : Json) : View where
  keys := v.keys
  payload i :=
    if i = (package.getD "batch" .null).text "batch_id" then
      some ((v.payload i).getD ((package.getD "batch" .null).text "payload_hex"))
    else v.payload i
  has i := v.has i ∨ i ∈ (package.items "records").map (Json.text · "record_id")

/-- The records of the package do not wait for each other, the row carries the payload of the stored
batch, and it is among the first ten thousand rows of the batch. -/
def Confirms (v : View) (c : Commitment) (package : Json) : Prop :=
  (∀ r, ¬ Stuck v.has (package.items "records") r) ∧
    (v.imported package).payload c.batchId = some c.payloadHex ∧ Early v.keys c.key

end View

/-- Every row that is served a package is confirmed by it, in turn. -/
def Agreed : View → List (Commitment × Option Json) → Prop
  | _, [] => True
  | v, (_, none) :: served => Agreed v served
  | v, (c, some package) :: served => v.Confirms c package ∧ Agreed (v.imported package) served

section Resolver

variable [Ed25519] {s t u : Store} {c r : Commitment}

namespace Store

def view (s : Store) : View := ⟨s.keys, fun i => (s.batches.find? i).map Batch.payloadHex, s.Has⟩

theorem local_iff_view {batchId payloadHex : PyStr} :
    s.Local batchId payloadHex ↔ s.view.payload batchId = some payloadHex := by
  simp only [view, Option.map_eq_some_iff, Table.find?_eq_some, Local, and_assoc]

theorem find?_batches_insertIgnore {b : Batch} (i : PyStr) :
    (s.batches.insertIgnore b).find? i =
      if i = b.batchId then some ((s.batches.find? i).getD b) else s.batches.find? i := by
  cases hfind : s.batches.find? b.batchId with
  | some old =>
    obtain ⟨ho, hk⟩ := Table.find?_eq_some.mp hfind
    rw [Table.insertIgnore_eq_self ⟨old, ho, hk⟩]
    split_ifs with hi
    · rw [hi, hfind, Option.getD_some]
    · rfl
  | none =>
    have hnone := Table.find?_eq_none.mp hfind
    split_ifs with hi
    · rw [hi, hfind, Option.getD_none, Table.find?_eq_some]
      exact ⟨Table.mem_insertIgnore.mpr (Or.inr ⟨rfl, hnone⟩), rfl⟩
    · ext b'
      rw [Table.find?_eq_some, Table.find?_eq_some, Table.mem_insertIgnore]
      constructor
      · rintro ⟨hb' | ⟨rfl, -⟩, rfl⟩
        · exact ⟨hb', rfl⟩
        · exact absurd rfl hi
      · exact fun h => ⟨Or.inl h.1, h.2⟩

theorem view_insertBatch {package b : Json} {rs : List Json} {id : PyStr}
    (hfacts : Packages.Facts package b rs id) (hadds : s.Adds t {r | r ∈ rs})
    (hall : ∀ r ∈ rs, t.Has (r.text "record_id"))
    (h : ∀ r ∈ (Batch.mk b hfacts.validBatch).recordIds, t.Has r) :
    (t.insertBatch ⟨b, hfacts.validBatch⟩ h).view = s.view.imported package := by
  have hkeys : (t.insertBatch ⟨b, hfacts.validBatch⟩ h).keys = s.keys :=
    congrArg (fun rows => (Table.rows rows).map Commitment.key) hadds.commitments
  have hpayload : ∀ i, ((t.insertBatch ⟨b, hfacts.validBatch⟩ h).batches.find? i).map
      Batch.payloadHex = (s.view.imported package).payload i := by
    intro i
    simp only [View.imported, hfacts.getD_batch, view]
    rw [← hadds.batches]
    refine (congrArg (Option.map Batch.payloadHex) (find?_batches_insertIgnore i)).trans ?_
    by_cases hi : i = b.text "batch_id"
    · rw [if_pos hi]
      refine (congrArg _ (if_pos hi)).trans ?_
      cases t.batches.find? i <;> rfl
    · rw [if_neg hi]
      exact congrArg _ (if_neg hi)
  have hhas : ∀ i, t.Has i ↔ (s.view.imported package).has i := by
    intro i
    simp only [View.imported, hfacts.items_records, view]
    constructor
    · rintro ⟨row, hrow, rfl⟩
      rcases hadds.new row hrow with hrow | hrow
      · exact Or.inl ⟨row, hrow, rfl⟩
      · exact Or.inr (List.mem_map.mpr ⟨row.body, hrow, rfl⟩)
    · rintro (hi | hi)
      · exact hadds.has hi
      · obtain ⟨r, hr, rfl⟩ := List.mem_map.mp hi
        exact hall r hr
  exact View.mk.injEq .. ▸ ⟨hkeys, funext hpayload, funext fun i => propext (hhas i)⟩

theorem keys_markCommitmentResolved (p : Point) : (s.markCommitmentResolved p).keys = s.keys := by
  simp only [keys, markCommitmentResolved, Table.updateWhere, List.map_map]
  apply List.map_congr_left
  intro r _
  simp only [Function.comp_apply]
  split_ifs <;> rfl

theorem view_markCommitmentResolved (p : Point) : (s.markCommitmentResolved p).view = s.view := by
  rw [view, keys_markCommitmentResolved]
  rfl

theorem view_confirm (c : Commitment) : (s.confirm c).view = s.view := by
  unfold confirm
  split_ifs <;> rfl

theorem view_register (c : Commitment) : (s.register c).view = s.view :=
  (view_markCommitmentResolved c.point).trans (view_confirm c)

def resolvedPoints (s : Store) : Set Point :=
  {p | (∃ r ∈ s.commitments, r.point = p ∧ r.resolved) ∧
    ∃ a ∈ s.anchors, a.point = p ∧ a.status = .confirmed}

def unresolvedPoints (s : Store) : Set Point :=
  {p | ∃ r ∈ s.commitments, r.point = p ∧ r.resolved = false}

/-- From `s` to `t` the rows at the points are resolved. -/
structure Resolves (s t : Store) (P : Set Point) : Prop where
  cores : t.cores = s.cores
  kept : s.resolvedPoints ⊆ t.resolvedPoints
  confirmed : P ⊆ t.resolvedPoints
  unresolved : t.unresolvedPoints = s.unresolvedPoints \ P

namespace Resolves

variable {P P' : Set Point}

theorem of_eq (hc : t.commitments = s.commitments) (ha : t.anchors = s.anchors) :
    s.Resolves t ∅ where
  cores := by rw [Store.cores, hc, Store.cores]
  kept := by rw [resolvedPoints, resolvedPoints, hc, ha]
  confirmed := Set.empty_subset _
  unresolved := by rw [unresolvedPoints, unresolvedPoints, hc, Set.sdiff_empty]

theorem refl (s : Store) : s.Resolves s ∅ := .of_eq rfl rfl

theorem trans (h : s.Resolves t P) (h' : t.Resolves u P') : s.Resolves u (P ∪ P') where
  cores := h'.cores.trans h.cores
  kept := h.kept.trans h'.kept
  confirmed := Set.union_subset (h.confirmed.trans h'.kept) h'.confirmed
  unresolved := by rw [h'.unresolved, h.unresolved, Set.sdiff_sdiff]

end Resolves

theorem resolves_insertBatch {package b : Json} {rs : List Json} {id : PyStr}
    (hfacts : Packages.Facts package b rs id) (hadds : s.Adds t {r | r ∈ rs})
    (h : ∀ r ∈ (Batch.mk b hfacts.validBatch).recordIds, t.Has r) :
    s.Resolves (t.insertBatch ⟨b, hfacts.validBatch⟩ h) ∅ :=
  .of_eq hadds.commitments hadds.anchors

theorem resolves_markCommitmentResolved {p : Point} (hr : ∃ r ∈ s.commitments, r.point = p)
    (ha : ∃ a ∈ s.anchors, a.point = p ∧ a.status = .confirmed) :
    s.Resolves (s.markCommitmentResolved p) {p} := by
  constructor
  · exact cores_markCommitmentResolved
  · rintro q ⟨⟨r, hr, hp, hres⟩, ha⟩
    refine ⟨⟨_, mem_markCommitmentResolved.mpr ⟨r, hr, rfl⟩, ?_⟩, ha⟩
    split_ifs
    · exact ⟨hp, rfl⟩
    · exact ⟨hp, hres⟩
  · rintro q rfl
    obtain ⟨r, hr, rfl⟩ := hr
    exact ⟨⟨r.resolve, mem_markCommitmentResolved.mpr ⟨r, hr, (if_pos rfl).symm⟩, rfl, rfl⟩, ha⟩
  · ext q
    constructor
    · rintro ⟨r, hr, hq, hres⟩
      obtain ⟨r₀, hr₀, rfl⟩ := mem_markCommitmentResolved.mp hr
      split_ifs at hq hres with hp
      · cases hres
      · exact ⟨⟨r₀, hr₀, hq, hres⟩, fun he => hp (hq.trans he)⟩
    · rintro ⟨⟨r, hr, hq, hres⟩, hne⟩
      refine ⟨r, mem_markCommitmentResolved.mpr ⟨r, hr, ?_⟩, hq, hres⟩
      exact (if_neg fun hp => hne (hq.symm.trans hp)).symm

theorem resolves_confirm (hl : ∃ b ∈ s.batches, b.batchId = c.batchId) :
    s.Resolves (s.confirm c) ∅ := by
  constructor
  · exact cores_confirm
  · rintro q ⟨hr, a, ha, hp, hst⟩
    rw [← confirm_commitments (c := c)] at hr
    refine ⟨hr, ?_⟩
    by_cases hq : a.point = c.point
    · exact ⟨_, (mem_confirm hl).mpr (Or.inr rfl), hq.symm.trans hp, rfl⟩
    · exact ⟨a, (mem_confirm hl).mpr (Or.inl ⟨ha, hq⟩), hp, hst⟩
  · exact Set.empty_subset _
  · rw [unresolvedPoints, confirm_commitments, unresolvedPoints, Set.sdiff_empty]

theorem resolves_register (hc : c ∈ s.commitments) (hl : ∃ b ∈ s.batches, b.batchId = c.batchId) :
    s.Resolves (s.register c) {c.point} := by
  have hmark : (s.confirm c).Resolves (s.register c) {c.point} := by
    apply resolves_markCommitmentResolved
    · exact ⟨c, by rwa [confirm_commitments], rfl⟩
    · exact ⟨_, (mem_confirm hl).mpr (Or.inr rfl), rfl, rfl⟩
  exact Set.empty_union {c.point} ▸ (resolves_confirm hl).trans hmark

end Store

section Rows

variable {rpcAnswers : Answers} {answers : PeerAnswers} {peers : List PyStr} {n : ℕ}
  {result : ResolveResult}

theorem registerScannedAnchor_core {Q : Py Anchor → Store → Prop} (hc : c.core ∈ s.cores)
    (found : s.Local c.batchId c.payloadHex → Early s.keys c.key → ∀ a t,
      s.Resolves t {c.point} → t.view = s.view → Q (.ok a) t)
    (failed : ¬ (s.Local c.batchId c.payloadHex ∧ Early s.keys c.key) → ∀ e t, Q (.error e) t) :
    (Service.registerScannedAnchor c.batchId c.point).Alone (environment rpcAnswers)
      (fun _ => True) Q s := by
  obtain ⟨r, hr, he⟩ := hc
  have hpoint : r.point = c.point := congrArg Core.point he
  have hbatch : r.batchId = c.batchId := congrArg Core.batchId he
  have hpayload : r.payloadHex = c.payloadHex := congrArg Core.payloadHex he
  have hkey : r.key = c.key := Prod.ext hpoint hbatch
  apply registerScannedAnchor_exact trivial
  · intro r' hr' hp' hb' hlocal hlisted
    obtain rfl : r' = r := Table.eq_of_key hr' hr (hp'.trans hpoint.symm)
    rw [Store.listed_iff_early hr, hkey] at hlisted
    have hresolves := Store.resolves_register hr hlocal.exists_batch
    rw [hpoint] at hresolves
    rw [hbatch, hpayload] at hlocal
    exact ⟨trivial, trivial, found hlocal hlisted _ _ hresolves (Store.view_register r')⟩
  · intro hnone e
    apply failed
    rintro ⟨hlocal, hearly⟩
    refine hnone ⟨r, hr, hpoint, hbatch, ?_, ?_⟩
    · rwa [hbatch, hpayload]
    · rwa [Store.listed_iff_early hr, hkey]

theorem resolveCommitment_answered {Q : Py ResolveResult → Store × ℕ → Prop}
    (hc : c.core ∈ s.cores)
    (missing : (fetched answers c.batchId peers n).1 = none →
      ∀ result', Q (.ok result') (s, (fetched answers c.batchId peers n).2))
    (confirmed : ∀ package, (fetched answers c.batchId peers n).1 = some package →
      s.view.Confirms c package → ∀ result' t, s.Resolves t {c.point} →
        t.view = s.view.imported package →
          Q (.ok result') (t, (fetched answers c.batchId peers n).2))
    (failed : ∀ package, (fetched answers c.batchId peers n).1 = some package →
      ¬ s.view.Confirms c package → ∀ e t, Q (.error e) t) :
    (resolveCommitment peers result c).Alone (answered rpcAnswers answers) (fun _ => True) Q
      (s, n) := by
  simp only [resolveCommitment, bind_eq, Alone, ensures_bind]
  apply fetchPackage_answered
  intro errors
  rw [thenOk_ok]
  cases hfetched : (fetched answers c.batchId peers n).1 with
  | none => exact missing hfetched _
  | some package =>
    obtain ⟨x, hx⟩ := acceptable_of_fetched hfetched
    obtain ⟨-, hv, hid⟩ := acceptable_eq_some.mp hx
    obtain ⟨b, rs, id, hfacts⟩ := Packages.validatePackage_ok hv
    have hrecords : package.items "records" = rs := hfacts.items_records
    simp only [ensures_bind]
    apply alone_answered (Service.importPackage_calls package)
    apply Service.importPackage_alone hv hfacts
    · intro hfree _ t hadds hall h
      have hview := Store.view_insertBatch hfacts hadds hall h
      have hresolves := Store.resolves_insertBatch hfacts hadds h
      have hconfirms : s.view.Confirms c package ↔
          (t.insertBatch ⟨b, hfacts.validBatch⟩ h).Local c.batchId c.payloadHex ∧
            Early (t.insertBatch ⟨b, hfacts.validBatch⟩ h).keys c.key := by
        have hkeys : (t.insertBatch ⟨b, hfacts.validBatch⟩ h).keys = s.keys :=
          congrArg View.keys hview
        rw [Store.local_iff_view, hview, hkeys, View.Confirms, hrecords]
        exact and_iff_right hfree
      rw [thenOk_ok, ensures_bind]
      apply alone_answered (Service.registerScannedAnchor_calls _ _)
      apply registerScannedAnchor_core (hresolves.cores ▸ hc)
      · intro hlocal hearly a u hu hsame
        rw [thenOk_ok, ensures_bind]
        apply storage_answered.mpr
        refine ⟨trivial, ?_⟩
        obtain ⟨⟨r, hr, hp, -⟩, hanchor⟩ := hu.confirmed rfl
        have hmark := (hresolves.trans hu).trans (Store.resolves_markCommitmentResolved
          ⟨r, hr, hp⟩ hanchor)
        rw [Set.empty_union, Set.union_self] at hmark
        apply confirmed package hfetched (hconfirms.mpr ⟨hlocal, hearly⟩) _ _ hmark
        exact (u.view_markCommitmentResolved c.point).trans (hsame.trans hview)
      · exact fun hnot e u => failed package hfetched (mt hconfirms.mp hnot) e (u, _)
    · rintro ⟨r, hr⟩ e t
      exact failed package hfetched (fun h => h.1 r (hrecords ▸ hr)) e (t, _)

def servedPoints (served : List (Commitment × Option Json)) : Set Point :=
  {p | ∃ c package, (c, some package) ∈ served ∧ c.point = p}

omit [Ed25519] in
theorem servedPoints_nil : servedPoints [] = ∅ := by
  ext p
  exact iff_of_false (fun ⟨_, _, h, _⟩ => List.not_mem_nil h) (Set.notMem_empty p)

omit [Ed25519] in
theorem servedPoints_cons_none {served : List (Commitment × Option Json)} :
    servedPoints ((c, none) :: served) = servedPoints served := by
  ext p
  constructor
  · rintro ⟨c', package, h, rfl⟩
    rcases List.mem_cons.mp h with he | h
    · cases he
    · exact ⟨c', package, h, rfl⟩
  · rintro ⟨c', package, h, rfl⟩
    exact ⟨c', package, List.mem_cons_of_mem _ h, rfl⟩

omit [Ed25519] in
theorem servedPoints_cons_some {served : List (Commitment × Option Json)} {package : Json} :
    servedPoints ((c, some package) :: served) = {c.point} ∪ servedPoints served := by
  ext p
  constructor
  · rintro ⟨c', package', h, rfl⟩
    rcases List.mem_cons.mp h with he | h
    · obtain ⟨rfl, -⟩ := Prod.mk.inj he
      exact Or.inl rfl
    · exact Or.inr ⟨c', package', h, rfl⟩
  · rintro (rfl | ⟨c', package', h, rfl⟩)
    · exact ⟨c, package, List.mem_cons_self, rfl⟩
    · exact ⟨c', package', List.mem_cons_of_mem _ h, rfl⟩

/-- The examined rows are worked off to their end exactly if they agree with the packages. -/
theorem resolveRows_answered {rows : List Commitment} {Q : Py ResolveResult → Store → Prop}
    (hrows : ∀ c ∈ rows, c.core ∈ s.cores)
    (done : Agreed s.view (servings answers peers rows n) → ∀ result' t,
      s.Resolves t (servedPoints (servings answers peers rows n)) →
        t.view.keys = s.view.keys → Q (.ok result') t)
    (failed : ¬ Agreed s.view (servings answers peers rows n) → ∀ e t, Q (.error e) t) :
    (rows.foldlM (resolveCommitment peers) result).Alone (answered rpcAnswers answers)
      (fun _ => True) (fun r t => Q r t.1) (s, n) := by
  induction rows generalizing s n result with
  | nil => exact done trivial _ s (by rw [servings, servedPoints_nil]; exact .refl s) rfl
  | cons c rows ih =>
    obtain ⟨hc, hrows⟩ := List.forall_mem_cons.mp hrows
    simp only [List.foldlM_cons, bind_eq, Alone, ensures_bind]
    apply resolveCommitment_answered hc
    · intro hnone result'
      rw [servings, hnone] at done failed
      rw [servedPoints_cons_none] at done
      exact ih hrows done failed
    · intro package hsome hconfirms result' t ht hview
      rw [servings, hsome] at done failed
      rw [servedPoints_cons_some] at done
      apply ih fun c' hc' => ht.cores ▸ hrows c' hc'
      · intro hagreed result' u hu hkeys
        rw [hview] at hagreed hkeys
        exact done ⟨hconfirms, hagreed⟩ result' u (ht.trans hu) hkeys
      · intro hagreed
        rw [hview] at hagreed
        exact failed fun h => hagreed h.2
    · intro package hsome hnot e t
      rw [servings, hsome] at failed
      exact failed (fun h => hnot h.1) e t.1

def Store.examined (s : Store) (limit : ℤ) : List Commitment := s.selectCommitments true none limit

theorem resolveCommitments_answered {limit : ℤ} {Q : Py ResolveResult → Store → Prop}
    (done : sqliteInt limit → Agreed s.view (servings answers peers (s.examined limit) 0) →
      ∀ result t, s.Resolves t (servedPoints (servings answers peers (s.examined limit) 0)) →
        t.keys = s.keys → Q (.ok result) t)
    (failed : ¬ (sqliteInt limit ∧ Agreed s.view (servings answers peers (s.examined limit) 0)) →
      ∀ e t, Q (.error e) t) :
    (resolveCommitments peers limit).Alone (answered rpcAnswers answers) (fun _ => True)
      (fun r t => Q r t.1) (s, 0) := by
  rw [resolveCommitments, bind_eq, Alone, ensures_bind]
  apply storage_answered.mpr
  refine ⟨trivial, ?_⟩
  by_cases hlimit : sqliteInt limit
  · rw [Store.run, Store.query_ok hlimit]
    exact resolveRows_answered (fun c hc => ⟨c, Store.mem_of_selectCommitments hc, rfl⟩)
      (done hlimit) fun hnot => failed fun h => hnot h.2
  · rw [Store.run, Store.query, if_neg hlimit]
    exact failed (fun h => hlimit h.1) _ _

end Rows

section Returns

variable (s : Store) (chain : Chain) (answers : PeerAnswers) (peers : List PyStr) (limit : ℤ)

theorem exists_exec_resolveCommitments : ∃ r t,
    (resolveCommitments peers limit).Exec (answered chain.truthful answers) (s, 0) r t := by
  have hobeys : Obeys chain.oracle (environment chain.truthful) :=
    chain.obeys_oracle fun _ _ _ => rfl
  exact ⟨_, _, exec_eval (obeys_numbered hobeys) _ _⟩

theorem exists_error_of_not_agreed
    (h : ¬ (sqliteInt limit ∧ Agreed s.view (servings answers peers (s.examined limit) 0))) :
    ∃ e t, (resolveCommitments peers limit).Exec (answered chain.truthful answers) (s, 0)
      (.error e) t := by
  obtain ⟨r, t, hx⟩ := exists_exec_resolveCommitments s chain answers peers limit
  have herror : ∃ e, r = .error e := Ensures.exec (fun _ => rfl)
    (resolveCommitments_answered (Q := fun r _ => ∃ e, r = .error e)
      (fun hlimit hagreed => absurd ⟨hlimit, hagreed⟩ h) fun _ e _ => ⟨e, rfl⟩) hx
  obtain ⟨e, rfl⟩ := herror
  exact ⟨e, t, hx⟩

/-- The resolver returns and confirms every examined commitment of a batch that it is served, exactly
if its limit can be bound and all examined rows that are served a package agree with it. -/
theorem resolve_returns_iff :
    (∀ r t n, (resolveCommitments peers limit).Exec (answered chain.truthful answers) (s, 0) r
        (t, n) →
      (∃ result, r = .ok result) ∧
        ∀ c package, (c, some package) ∈ servings answers peers (s.examined limit) 0 →
          (∃ p, Bitcoin.decodeAnchorPayload c.payloadHex = .ok p ∧
            p.commitmentType = Bitcoin.commitmentTypeBatchManifest) →
          (∃ row ∈ t.commitments, row.point = c.point ∧ row.resolved) ∧
            ∃ a ∈ t.anchors, a.point = c.point ∧ a.status = .confirmed) ↔
      sqliteInt limit ∧ Agreed s.view (servings answers peers (s.examined limit) 0) := by
  constructor
  · intro hall
    by_contra hnot
    obtain ⟨e, ⟨t, n⟩, hx⟩ := exists_error_of_not_agreed s chain answers peers limit hnot
    obtain ⟨⟨result, hr⟩, -⟩ := hall _ t n hx
    cases hr
  · rintro ⟨hlimit, hagreed⟩ r t n hx
    have hrun : (∃ result, r = .ok result) ∧
        servedPoints (servings answers peers (s.examined limit) 0) ⊆ t.resolvedPoints :=
      Ensures.exec (fun _ => rfl) (resolveCommitments_answered
        (Q := fun r t => (∃ result, r = .ok result) ∧
          servedPoints (servings answers peers (s.examined limit) 0) ⊆ t.resolvedPoints)
        (fun _ _ result t ht _ => ⟨⟨result, rfl⟩, ht.confirmed⟩)
        fun hnot => absurd ⟨hlimit, hagreed⟩ hnot) hx
    exact ⟨hrun.1, fun c package hc _ => hrun.2 ⟨c, package, hc, rfl⟩⟩

theorem agreed_singleton {c : Commitment} {package : Json}
    (hid : (package.getD "batch" .null).text "batch_id" = c.batchId)
    (hpayload : (package.getD "batch" .null).text "payload_hex" = c.payloadHex)
    (hstored : ∀ b ∈ s.batches, b.batchId ≠ c.batchId)
    (hfree : ∀ r ∈ package.items "records", r.text "target_record_id" = [])
    (hearly : Early s.keys c.key) : Agreed s.view [(c, some package)] := by
  refine ⟨⟨fun r hr => ?_, ?_, hearly⟩, trivial⟩
  · obtain ⟨hm, hne, -⟩ := hr.waits
    exact hne (hfree r hm)
  · have hnone : s.view.payload c.batchId = none :=
      congrArg (Option.map Batch.payloadHex) (Table.find?_eq_none.mpr hstored)
    simp only [View.imported, if_pos hid.symm, hnone, Option.getD_none, hpayload]

/-- A first row that carries another payload than the package it is served, with its batch not
stored, does not agree. -/
theorem not_agreed_of_payload {c : Commitment} {rows : List Commitment} {package : Json}
    (hfetched : (fetched answers c.batchId peers 0).1 = some package)
    (hstored : ∀ b ∈ s.batches, b.batchId ≠ c.batchId)
    (hne : c.payloadHex ≠ (package.getD "batch" .null).text "payload_hex") :
    ¬ Agreed s.view (servings answers peers (c :: rows) 0) := by
  rw [servings, hfetched]
  rintro ⟨⟨-, hpayload, -⟩, -⟩
  obtain ⟨x, hx⟩ := acceptable_of_fetched hfetched
  obtain ⟨-, -, hid⟩ := acceptable_eq_some.mp hx
  have hnone : s.view.payload c.batchId = none :=
    congrArg (Option.map Batch.payloadHex) (Table.find?_eq_none.mpr hstored)
  simp only [View.imported, if_pos hid.symm, hnone, Option.getD_none, Option.some.injEq] at hpayload
  exact hne hpayload.symm

end Returns

end Resolver

section Witness

attribute [local instance] conformanceKeys

def sampleMixedChain : Chain where
  network := "signet"
  blocks := [sampleGenesis, ("0a", ⟨some 2, [⟨some "1f",
    [⟨some 0, "6a26" ++ sampleTyped⟩, ⟨some 1, "6a26" ++ samplePayload⟩]⟩]⟩)]
  hashes_nodup := by decide
  txids_nodup := by decide
  numbers_nodup := by decide

def sampleMixed : Store := rescanned sampleMixedChain .empty

def sampleRow (vout : ℕ) (payloadHex : PyStr) : Commitment :=
  ⟨"1f", vout, "5ca8c08e0aefbc9ecced864f9499b9f7c2b8af326257f6de2f9dd5488ba356fd", payloadHex,
    "signet", 1, "0a", 2, "confirmed", 0, false⟩

theorem sampleMixed_examined :
    sampleMixed.examined 100 = [sampleRow 0 sampleTyped, sampleRow 1 samplePayload] := by
  decide +kernel

/-- The resolver raises at the commitment of another type, and the batch's own is not reached. -/
theorem other_type_ends_resolve : Scans {sampleMixedChain} 0 .empty sampleMixedChain sampleMixed ∧
    (∃ p, Bitcoin.decodeAnchorPayload (sampleRow 1 samplePayload).payloadHex = .ok p ∧
      p.commitmentType = Bitcoin.commitmentTypeBatchManifest) ∧
    (∃ package, (sampleRow 1 samplePayload, some package) ∈
      servings (fun _ _ _ => .ok lowerPackage) ["p"] (sampleMixed.examined 100) 0) ∧
    ∃ e t, (resolveCommitments ["p"] 100).Exec
      (answered sampleMixedChain.truthful fun _ _ _ => .ok lowerPackage)
      (sampleMixed, 0) (.error e) t := by
  have hfetched : fetched (fun _ _ _ => .ok lowerPackage) (sampleRow 0 sampleTyped).batchId ["p"]
      0 = (some lowerPackage, 1) :=
    fetched_of_const lowerPackage_valid (spelledPackage_batchId _ _)
  have hnot : ¬ Agreed sampleMixed.view (servings (fun _ _ _ => .ok lowerPackage) ["p"]
      (sampleMixed.examined 100) 0) := by
    rw [sampleMixed_examined]
    apply not_agreed_of_payload _ _ _ (congrArg Prod.fst hfetched)
    · decide +kernel
    · rw [lowerPackage, spelledPackage_payloadHex]
      decide
  constructor
  · exact .one rfl (@ScanCall.of_eval _ 0 500 sampleMixedChain .empty (by decide +kernel))
  constructor
  · exact ⟨_, rfl, by decide⟩
  constructor
  · rw [sampleMixed_examined]
    exact ⟨lowerPackage, mem_servings_of_const lowerPackage_valid (spelledPackage_batchId _ _)
      (List.mem_cons_of_mem _ List.mem_cons_self)⟩
  · refine exists_error_of_not_agreed _ _ _ _ _ ?_
    exact mt And.right hnot

end Witness

end HistoryAnchor

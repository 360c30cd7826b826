import HistoryAnchor.Effects.Pools
import HistoryAnchor.Sync.Cycles

/-! # Cycles in company

While a cycle runs, the other programs of its node store what they like, and so does the
peer. Records and batches are only added, so what the cycle has stored stays, and its
numbers still mean what they meant. A cycle that returns has stored every record and
every batch that the peer had when it began.
-/

namespace HistoryAnchor

open Python Effects Prog Tables

section Company

variable [Ed25519] {rpcAnswers : Answers} {epoch peer key : PyStr} {p : Peer} {kind : SyncKind}
variable {α β : Type} {s t : Store} {w w' : World}

theorem storage_growing {c : StorageCall β} {Q : Py β → Store → Prop}
    (h : ∀ s₁, s.Grows s₁ → Q (s₁.run c).1 (s₁.run c).2) :
    (storage c).Ensures (environment rpcAnswers) Store.Grows Store.Grows Q s := by
  rw [storage, ensures_perform]
  intro s₁ hs x s₂ hc
  obtain rfl : x = (s₁.run c).1 := congrArg Prod.fst hc
  obtain rfl : s₂ = (s₁.run c).2 := congrArg Prod.snd hc
  exact ⟨Store.grows_run c, h s₁ hs⟩

theorem node_growing (p : Node α) (s : Store) :
    p.Ensures (environment rpcAnswers) Store.Grows Store.Grows (fun _ _ => True) s := by
  induction p generalizing s with
  | ret a => trivial
  | raise e => trivial
  | call c k ih => exact fun s₁ _ x s₂ hc => ⟨grows_environment hc, ih x s₂⟩

theorem submitRecord_growing (row : Record) :
    (Service.submitRecord row.body false Service.noPolicy).Ensures (environment rpcAnswers)
      Store.Grows Store.Grows (fun r t => (∃ status, r = .ok status) ∧ t.Has row.recordId) s := by
  unfold Service.submitRecord
  split
  · rename_i e he
    rw [row.valid] at he
    cases he
  · simp only [Service.noPolicy, rethrow, bind_eq, ensures_bind, ensures_ofExcept, thenOk_ok]
    refine storage_growing fun s₁ _ => ?_
    simp only [Store.run, thenOk_ok]
    by_cases hex : s₁.Has row.recordId
    · rw [if_pos (Store.find?_isSome_iff_has.mpr hex)]
      exact ⟨⟨_, rfl⟩, hex⟩
    · rw [if_neg (mt Store.find?_isSome_iff_has.mp hex)]
      simp only [Bool.false_eq_true, false_and, if_false, ensures_bind]
      refine storage_growing fun s₂ _ => ?_
      simp only [Store.run, thenOk_ok]
      exact ⟨⟨_, rfl⟩, Store.has_addRecord_iff.mpr (Or.inr rfl)⟩

theorem importBatch_growing (b : Batch) :
    (Service.importBatch b.body).Ensures (environment rpcAnswers) Store.Grows Store.Grows
      (fun r t => ((∃ status, r = .ok status) ∧ ∃ b' ∈ t.batches, b'.batchId = b.batchId) ∨
        (∃ e : Exc, r = .error e ∧ e.type = .missingDependencyError) ∧
          ∃ i ∈ b.recordIds, ¬ s.Has i) s := by
  unfold Service.importBatch
  split
  · rename_i e he
    rw [b.valid] at he
    cases he
  · simp only [bind_eq, ensures_bind]
    apply ensures_foldlM fun ids (n : ℕ) t => s.Grows t ∧ (n = 0 → ∀ i ∈ ids, t.Has i) ∧
      (n ≠ 0 → ∃ i ∈ b.recordIds, ¬ s.Has i)
    · rintro ids i rest n t hids ⟨hs, hzero, hmiss⟩
      simp only [pure_eq, ensures_bind]
      refine storage_growing fun t₁ ht => ?_
      simp only [Store.run, thenOk_ok, ensures_ret]
      have hs₁ : s.Grows t₁ := hs.trans ht
      have hi : i ∈ b.recordIds := by
        have hmem : i ∈ ids ++ i :: rest := List.mem_append_right _ List.mem_cons_self
        exact hids ▸ hmem
      split_ifs with hnone
      · refine ⟨hs₁, False.elim, fun _ => ⟨i, hi, fun hhas => ?_⟩⟩
        have hsome := Store.find?_isSome_iff_has.mpr (hs₁.has hhas)
        rw [Option.isNone_iff_eq_none] at hnone
        rw [hnone] at hsome
        cases hsome
      · have hhas : t₁.Has i := by
          rw [← Store.find?_isSome_iff_has, ← Option.isNone_eq_false_iff]
          exact Bool.eq_false_of_not_eq_true hnone
        refine ⟨hs₁, fun h => List.forall_mem_append.mpr ⟨fun j hj => ht.has (hzero h j hj), ?_⟩, hmiss⟩
        exact List.forall_mem_singleton.mpr hhas
    · rintro n t ⟨hs, hzero, hmiss⟩
      simp only [thenOk_ok, ensures_bind, ensures_ofExcept, require]
      by_cases hn : n = 0
      · rw [if_pos hn]
        simp only [thenOk_ok, ensures_bind]
        refine storage_growing fun t₁ ht => ?_
        have hall : ∀ i ∈ b.recordIds, t₁.Has i := fun i hi => ht.has (hzero hn i hi)
        have hadd : t₁.addBatch b = (.ok (t₁.batches.find? (b.body.text "batch_id")).isNone,
            t₁.insertBatch b hall) := dif_pos hall
        simp only [Store.run, hadd, thenOk_ok]
        have hmem := @Table.exists_mem_insertAll _ _ Batch.batchId _ t₁.batches [b] _
          List.mem_cons_self
        exact Or.inl ⟨⟨_, rfl⟩, hmem⟩
      · rw [if_neg hn]
        exact Or.inr ⟨⟨_, rfl, rfl⟩, hmiss hn⟩
    · exact ⟨s.grows_refl, fun _ _ h => absurd h List.not_mem_nil, fun h => absurd rfl h⟩

def Store.Lacks (s : Store) (kind : SyncKind) (v : Json) : Prop :=
  kind = .batches ∧ ∃ b : Batch, b.body = v ∧ ∃ i ∈ b.recordIds, ¬ s.Has i

theorem Store.Lacks.anti {v : Json} (h : s.Grows t) (hl : t.Lacks kind v) : s.Lacks kind v := by
  obtain ⟨hkind, b, hb, i, hi, hnot⟩ := hl
  exact ⟨hkind, b, hb, i, hi, fun hs => hnot (h.has hs)⟩

theorem importItem_growing {v : Json} (hv : kind ≠ .anchors → v ∈ p.store.bodies kind) :
    (importItem kind v).Ensures (environment rpcAnswers) Store.Grows Store.Grows
      (fun r t => kind ≠ .anchors → ((∃ status, r = .ok status) ∧ t.Stored kind v) ∨
        (∃ e : Exc, r = .error e ∧ e.type = .missingDependencyError) ∧ s.Lacks kind v) s := by
  cases kind with
  | records =>
    obtain ⟨row, -, rfl⟩ := List.mem_map.mp (hv (by decide))
    exact (submitRecord_growing row).post fun _ _ h _ => Or.inl h
  | batches =>
    obtain ⟨b, -, rfl⟩ := List.mem_map.mp (hv (by decide))
    exact (importBatch_growing b).post fun _ _ h _ =>
      h.imp id fun h => ⟨h.1, rfl, b, rfl, h.2⟩
  | anchors => exact (node_growing _ s).post fun _ _ _ h => absurd rfl h

namespace World

/-- What others do to the node and to the peer while a cycle runs. -/
structure Drifts (peer epoch key : PyStr) (w w' : World) : Prop where
  since : w.Since w'
  covered : KeepsCovered peer epoch key w w'

/-- What a call of a cycle does: of what is saved, only what the cycle saves is new, and it holds. -/
structure Moves (peer : PyStr) (w w' : World) : Prop where
  client : w.client.Grows w'.client
  saved : ∀ key state, w'.saved key = some state →
    w.saved key = some state ∨ state.peer = normalized peer ∧ state.Holds w'
  peer : w'.peer = w.peer

theorem Drifts.trans {w'' : World} (h : w.Drifts peer epoch key w')
    (h' : w'.Drifts peer epoch key w'') : w.Drifts peer epoch key w'' :=
  ⟨h.since.trans h'.since, fun hc => h'.covered (h.covered hc)⟩

theorem moves_refl (w : World) : w.Moves peer w := ⟨w.client.grows_refl, fun _ _ => Or.inl, rfl⟩

theorem Moves.since (h : w.Moves peer w') : w.Since w' :=
  ⟨h.client, h.peer ▸ w.peer.follows_refl⟩

theorem Moves.keepsCovered (h : w.Moves peer w') : KeepsCovered peer epoch key w w' := by
  intro hc state hstate hpeer hepoch
  rcases h.saved key state hstate with hold | ⟨-, hholds⟩
  · exact (hc state hold hpeer hepoch).since h.since
  · exact hholds

end World

/-- A state of the cycles with the peer, up to whose numbers everything is stored. -/
def SyncState.Tracks (peer : PyStr) (state : SyncState) (w : World) : Prop :=
  state.peer = normalized peer ∧ state.Holds w

theorem SyncState.Tracks.since {state : SyncState} (h : state.Tracks peer w)
    (hw : w.Since w') : state.Tracks peer w' :=
  ⟨h.1, h.2.since hw⟩

theorem World.moves_save {state : SyncState} (h : state.Tracks peer w)
    (hw : w' = { w with saved := Function.update w.saved key (some state) }) : w.Moves peer w' := by
  subst hw
  refine ⟨w.client.grows_refl, fun key' state' hs => ?_, rfl⟩
  by_cases he : key' = key
  · subst he
    have hsame : some state = some state' := (Function.update_self key' _ w.saved).symm.trans hs
    obtain rfl := Option.some.inj hsame
    exact Or.inr h
  · exact Or.inl ((Function.update_of_ne he _ w.saved).symm.trans hs)

theorem atNode_drifting {p : Node α} {Q : Py α → Store → Prop}
    (hQ : ∀ r s t, Q r s → s.Grows t → Q r t)
    (h : p.Ensures (environment rpcAnswers) Store.Grows Store.Grows Q w.client) :
    (atNode p).Ensures (syncing rpcAnswers epoch) (World.Drifts peer epoch key) (World.Moves peer)
      (fun r w' => Q r w'.client ∧ w.Since w') w := by
  have htrans : ∀ a b c : Store, a.Grows b → b.Grows c → a.Grows c := fun _ _ _ h h' => h.trans h'
  apply h.embed World.client (fun w' => w.Since w') htrans hQ
  · exact fun w₁ w₂ hw₁ hw₂ => ⟨hw₁.trans hw₂.since, hw₂.since.client⟩
  · rintro β c w₁ x w₂ hw₁ ⟨hc, hsaved, hpeer⟩
    refine ⟨w₂.client, hc, fun hgrows => ?_⟩
    have hmoves : w₁.Moves peer w₂ := ⟨hgrows, fun key state h => Or.inl (hsaved ▸ h), hpeer⟩
    exact ⟨hmoves, hw₁.trans hmoves.since, w₂.client.grows_refl⟩
  · exact w.since_refl

theorem peerCall_drifting {c : PeerCall β} {Q : Py β → World → Prop} :
    (peerCall c).Ensures (syncing rpcAnswers epoch) (World.Drifts peer epoch key)
      (World.Moves peer) Q w ↔
      ∀ w₁, w.Drifts peer epoch key w₁ → ∀ x w₂, c.Answered epoch w₁ x w₂ →
        w₁.Moves peer w₂ ∧ Q x w₂ :=
  ensures_perform

/-- What the import of the items of a page has achieved: all are stored, or those before one that
lacks a record. -/
theorem importItems_drifting {items : List Json} {result : SyncResult}
    (hitems : kind ≠ .anchors → ∀ v ∈ items, v ∈ p.store.bodies kind) :
    (importItems kind items result).Ensures (syncing rpcAnswers epoch)
      (World.Drifts peer epoch key) (World.Moves peer)
      (thenOk (fun x w' => w.Since w' ∧ (kind ≠ .anchors →
        if x.2 then ∃ before v after, items = before ++ v :: after ∧
          (∀ u ∈ before, w'.client.Stored kind u) ∧ w.client.Lacks kind v
        else ∀ v ∈ items, w'.client.Stored kind v)) fun _ _ => True) w := by
  induction items generalizing result w with
  | nil => exact ⟨w.since_refl, fun _ _ h => absurd h List.not_mem_nil⟩
  | cons v items ih =>
    have hrest : kind ≠ .anchors → ∀ x ∈ items, x ∈ p.store.bodies kind := fun hkind x hx =>
      hitems hkind x (List.mem_cons_of_mem v hx)
    have hitem := @importItem_growing _ rpcAnswers p kind w.client v fun hkind =>
      hitems hkind v List.mem_cons_self
    simp only [importItems, bind_eq, ensures_bind, ensures_outcome]
    apply (atNode_drifting ?_ hitem).post
    · rintro r w₁ ⟨hr, hw⟩
      cases r with
      | ok status =>
        apply (ih hrest).post
        rintro (e | x) w' h
        · trivial
        · refine ⟨hw.trans h.1, fun hkind => ?_⟩
          obtain ⟨-, hv⟩ := (hr hkind).resolve_right (by rintro ⟨⟨_, h, -⟩, -⟩; cases h)
          have hx := h.2 hkind
          split_ifs at hx ⊢
          · obtain ⟨before, u, after, rfl, hbefore, hlacks⟩ := hx
            refine ⟨v :: before, u, after, rfl, ?_, hlacks.anti hw.client⟩
            exact List.forall_mem_cons.mpr ⟨h.1.client.stored hkind hv, hbefore⟩
          · exact List.forall_mem_cons.mpr ⟨h.1.client.stored hkind hv, hx⟩
      | error e =>
        have hmissing : kind ≠ .anchors →
            e.type = .missingDependencyError ∧ w.client.Lacks kind v := by
          intro hkind
          obtain ⟨⟨e', he, htype⟩, hlack⟩ := (hr hkind).resolve_left (by rintro ⟨⟨_, h⟩, -⟩; cases h)
          exact ⟨Except.error.inj he ▸ htype, hlack⟩
        simp only [thenOk_ok]
        split_ifs with htype hservice
        · exact ⟨hw, fun hkind => ⟨[], v, items, rfl, fun _ h => absurd h List.not_mem_nil,
            (hmissing hkind).2⟩⟩
        · apply (ih hrest).post
          rintro (e | x) w' h
          · trivial
          · exact ⟨hw.trans h.1, fun hkind => absurd (hmissing hkind).1 htype⟩
        · trivial
    · exact fun r s t h hs hkind => (h hkind).imp_left fun h => ⟨h.1, hs.stored hkind h.2⟩

theorem getPage_drifting {afterSeq limit : ℤ} :
    (getPage kind afterSeq limit).Ensures (syncing rpcAnswers epoch)
      (World.Drifts peer epoch key) (World.Moves peer) (thenOk (fun page w' =>
        w.Since w' ∧ ∃ rows, rows = pageRows (w'.peer.served kind) afterSeq limit ∧
          1 ≤ limit ∧ page.items = rows.map Prod.snd ∧ page.seq = pageCursor rows afterSeq ∧
          page.hasMore = ((rows.length : ℤ) = limit)) fun _ _ => True) w := by
  rw [getPage, bind_eq, ensures_bind, peerCall_drifting]
  rintro w₁ hw x w₂ ⟨rfl, ⟨e, rfl⟩ | rfl⟩
  · exact ⟨w₂.moves_refl, trivial⟩
  · refine ⟨w₂.moves_refl, ?_⟩
    cases hv : w₂.peer.answer kind afterSeq limit with
    | error e => trivial
    | ok v =>
      rw [thenOk_ok, ensures_ofExcept]
      cases hpage : readPage kind v with
      | error e => trivial
      | ok page => exact ⟨hw.since, _, rfl, readPage_rows hv hpage⟩

/-- A row that lacks a record and was not there before comes after all that were: these are stored. -/
theorem stored_of_lacking {q : Peer} {state : SyncState} {limit : ℤ} {rows : List (ℕ × Json)}
    {before after : List Json} {v : Json} (hp : p.Follows q) (hkind : kind ≠ .anchors)
    (hrows : rows = pageRows (q.served kind) (state.seqs kind) limit) (hlimit : 1 ≤ limit)
    (hsplit : rows.map Prod.snd = before ++ v :: after) (hnew : v ∉ p.store.bodies kind)
    (hsynced : Synced (q.served kind) (t.Stored kind) (state.seqs kind))
    (hbefore : ∀ u ∈ before, t.Stored kind u) :
    ∀ u ∈ p.store.bodies kind, t.Stored kind u := by
  intro u hu
  obtain ⟨row, hrow, rfl⟩ := Peer.exists_served hu
  have hrow' : row ∈ q.served kind := (hp kind hkind).subset hrow
  obtain ⟨rows₁, rest, rfl, rfl, hrest⟩ := List.map_eq_append_iff.mp hsplit
  obtain ⟨last, rows₂, rfl, rfl, rfl⟩ := List.map_eq_cons_iff.mp hrest
  have hcovers : Covers (q.served kind) (rows₁ ++ last :: rows₂) (state.seqs kind) limit :=
    hrows ▸ covers_pageRows Peer.numbered_served hlimit
  have hlast : last ∈ q.served kind :=
    (hcovers.subset last (List.mem_append_right _ List.mem_cons_self)).1
  have hlt : (row.1 : ℤ) < last.1 := by
    apply lt_of_appended Peer.numbered_served (hp kind hkind) (Or.inr ⟨row, hrow, rfl⟩) hlast
    exact fun hold => hnew (Peer.mem_bodies_of_served hold)
  have hsorted : (rows₁ ++ last :: rows₂).Pairwise fun x y => x.1 < y.1 := by
    have hall : (q.served kind).Pairwise fun x y => x.1 < y.1 :=
      List.pairwise_map.mp (List.pairwise_cons.mp Peer.numbered_served).2
    rw [hrows, pageRows]
    exact hall.sublist ((List.take_sublist _ _).trans List.filter_sublist)
  rw [List.pairwise_append] at hsorted
  have hle : (row.1 : ℤ) ≤ pageCursor (rows₁ ++ last :: rows₂) (state.seqs kind) := by
    rw [pageCursor, List.getLast?_append_of_ne_nil _ (List.cons_ne_nil _ _)]
    cases hend : (last :: rows₂).getLast? with
    | none => exact absurd (List.getLast?_eq_none_iff.mp hend) (List.cons_ne_nil _ _)
    | some z =>
      rw [Option.map_some, Option.getD_some]
      rcases List.mem_cons.mp (List.mem_of_getLast? hend) with rfl | hz
      · exact hlt.le
      · have hz' := (List.pairwise_cons.mp hsorted.2.1).1 z hz
        omega
  rcases hcovers.upTo row hrow' hle with hold | hin
  · exact hsynced.stored row hrow' hold
  · rcases List.mem_append.mp hin with h₁ | h₂
    · exact hbefore row.2 (List.mem_map_of_mem h₁)
    · exfalso
      rcases List.mem_cons.mp h₂ with rfl | h₂
      · omega
      · have hlt' := (List.pairwise_cons.mp hsorted.2.1).1 row h₂
        omega

/-- A pass over one endpoint stores everything that a peer had before it, or a batch of that peer
lacked a record when the pass began. -/
theorem syncPages_drifting {pageSize : ℤ} {maxPages pages : ℕ} {state : SyncState}
    {result : SyncResult} (hp : p.Follows w.peer) (hstate : state.Tracks peer w) :
    (syncPages key kind pageSize maxPages pages state result).Ensures (syncing rpcAnswers epoch)
      (World.Drifts peer epoch key) (World.Moves peer) (thenOk (fun x w' =>
        w.Since w' ∧ x.1.Tracks peer w' ∧ (kind ≠ .anchors →
          (∀ v ∈ p.store.bodies kind, w'.client.Stored kind v) ∨ p.Lacking kind w.client))
        fun _ _ => True) w := by
  induction pages generalizing state result w with
  | zero => trivial
  | succ pages ih =>
    simp only [syncPages, bind_eq, ensures_bind]
    apply (getPage_drifting).post
    rintro (e | page) w₁ hpage
    · trivial
    obtain ⟨hw₁, rows, hrows, hlimit, hitems, hseq, hmore⟩ := hpage
    have hcovers : Covers (w₁.peer.served kind) rows (state.seqs kind) pageSize :=
      hrows ▸ covers_pageRows Peer.numbered_served hlimit
    have hp₁ : p.Follows w₁.peer := hp.trans hw₁.peer
    rw [thenOk_ok, ensures_bind, ensures_ofExcept]
    by_cases hadvance : page.items = [] ∨ state.seqs kind < page.seq
    swap
    · rw [require, if_neg hadvance]
      trivial
    rw [require, if_pos hadvance, thenOk_ok, ensures_bind]
    have hserved : kind ≠ .anchors → ∀ v ∈ page.items, v ∈ w₁.peer.store.bodies kind := by
      intro _ v hv
      rw [hitems] at hv
      obtain ⟨row, hrow, rfl⟩ := List.mem_map.mp hv
      exact Peer.mem_bodies_of_served (hcovers.subset row hrow).1
    apply (importItems_drifting hserved).post
    rintro (e | ⟨result', missing⟩) w₂ himport
    · trivial
    obtain ⟨hw₂, hstored⟩ := himport
    have hsince : w.Since w₂ := hw₁.trans hw₂
    have hheld : kind ≠ .anchors →
        Synced (w₁.peer.served kind) (w₂.client.Stored kind) (state.seqs kind) := fun hkind =>
      ⟨((hstate.since hw₁).2 kind hkind).cursor, fun row hrow hle =>
        hw₂.client.stored hkind (((hstate.since hw₁).2 kind hkind).stored row hrow hle)⟩
    simp only [thenOk_ok]
    cases missing with
    | true =>
      refine ⟨hsince, hstate.since hsince, fun hkind => ?_⟩
      obtain ⟨before, v, after, hsplit, hbefore, hlacks⟩ := hstored hkind
      by_cases hold : v ∈ p.store.bodies kind
      · obtain ⟨rfl, b, rfl, i, hi, hnot⟩ := hlacks
        obtain ⟨b', hb', he⟩ := List.mem_map.mp hold
        refine Or.inr ⟨rfl, b', hb', i, ?_, fun h => hnot (hw₁.client.has h)⟩
        rwa [Batch.recordIds, he]
      · exact Or.inl (stored_of_lacking hp₁ hkind hrows hlimit (hitems ▸ hsplit) hold
          (hheld hkind) hbefore)
    | false =>
      simp only [Bool.false_eq_true, if_false, ensures_bind, peerCall_drifting]
      rintro w₃ hw₃ x w₄ ⟨rfl, hw₄⟩
      have hsince₃ : w.Since w₃ := hsince.trans hw₃.since
      have hfollows : w₁.peer.Follows w₃.peer := Peer.Follows.trans hw₂.peer hw₃.since.peer
      have hrow : kind ≠ .anchors → ∀ row ∈ rows, w₃.client.Stored kind row.2 := by
        intro hkind row hrow
        have hv := hstored hkind row.2 (hitems ▸ List.mem_map_of_mem hrow)
        exact hw₃.since.client.stored hkind hv
      have htracks : state.Tracks peer w₃ := hstate.since hsince₃
      have hnext : (state.advance kind page.seq).Tracks peer w₃ := by
        refine ⟨htracks.1, htracks.2.advance fun hkind => ?_⟩
        rw [hseq]
        exact (htracks.2 kind hkind).advance hcovers (hheld hkind).cursor (hfollows kind hkind)
          Peer.numbered_served (hrow hkind)
      have hnext₄ : (state.advance kind page.seq).Tracks peer w₄ := hw₄ ▸ hnext
      have hmoves : w₃.Moves peer w₄ := World.moves_save hnext hw₄
      refine ⟨hmoves, ?_⟩
      have hsince₄ : w.Since w₄ := hsince₃.trans hmoves.since
      rw [thenOk_ok]
      split_ifs with hhas
      · apply (ih (hp.trans hsince₄.peer) hnext₄).post
        rintro (e | x) w' h
        · trivial
        · obtain ⟨hw', hx, hpassed⟩ := h
          exact ⟨hsince₄.trans hw', hx, fun hkind => (hpassed hkind).imp_right fun h =>
            h.anti hsince₄.client⟩
      · refine ⟨hsince₄, hnext₄, fun hkind => Or.inl fun v hv => ?_⟩
        obtain ⟨row, hr, rfl⟩ := Peer.exists_served hv
        have hr₁ : row ∈ w₁.peer.served kind := (hp₁ kind hkind).subset hr
        apply hmoves.client.stored hkind
        rcases hcovers.all (fun h => hhas (hmore ▸ h)) row hr₁ with hbefore | hin
        · exact hw₃.since.client.stored hkind ((hheld hkind).stored row hr₁ hbefore)
        · exact hrow hkind row hin

theorem startState_drifting (hcovered : w.Covered peer epoch key) :
    (startState key peer epoch).Ensures (syncing rpcAnswers epoch) (World.Drifts peer epoch key)
      (World.Moves peer)
      (thenOk (fun x w' => w.Since w' ∧ x.1.Tracks peer w') fun _ _ => True) w := by
  have hfresh : ∀ w : World, SyncState.Tracks peer ⟨normalized peer, epoch, fun _ => 0⟩ w :=
    fun w => ⟨rfl, fun kind _ => synced_zero Peer.numbered_served⟩
  simp only [startState, bind_eq, ensures_bind, peerCall_drifting]
  rintro w₁ hw₁ x w₂ ⟨rfl, rfl⟩
  refine ⟨w₂.moves_refl, ?_⟩
  simp only [thenOk_ok]
  split_ifs with hother
  · simp only [ensures_bind, peerCall_drifting]
    rintro w₃ hw₃ x w₄ ⟨rfl, hw₄⟩
    have hmoves : w₃.Moves peer w₄ := World.moves_save (hfresh w₃) hw₄
    exact ⟨hmoves, (hw₁.since.trans hw₃.since).trans hmoves.since, hfresh w₄⟩
  · refine ⟨hw₁.since, ?_⟩
    cases hsaved : w₂.saved key with
    | none => exact hfresh w₂
    | some state =>
      simp only [hsaved, Option.getD_some, not_or, not_not] at hother
      exact ⟨hother.2, hw₁.covered hcovered state hsaved hother.2 hother.1⟩

/-- Everything that the peer had at the first moment is stored at the second. -/
def World.Fetched (w w' : World) : Prop :=
  ∀ kind ≠ .anchors, ∀ v ∈ w.peer.store.bodies kind, w'.client.Stored kind v

theorem syncPeer_drifting (hkey : peerKey peer = .ok key) (hcovered : w.Covered peer epoch key)
    {pageSize : ℤ} {maxPages : ℕ} :
    (syncPeer peer pageSize maxPages).Ensures (syncing rpcAnswers epoch)
      (World.Drifts peer epoch key) (World.Moves peer)
      (thenOk (fun _ w' => w.Fetched w') fun _ _ => True) w := by
  simp only [syncPeer, hkey, bind_eq, ensures_bind, ensures_ofExcept, thenOk_ok, peerCall_drifting]
  rintro w₁ hw₁ x w₂ ⟨rfl, ⟨e, rfl⟩ | ⟨info, rfl, hinfo⟩⟩
  · exact ⟨w₂.moves_refl, trivial⟩
  refine ⟨w₂.moves_refl, ?_⟩
  rw [thenOk_ok, ensures_bind, ensures_ofExcept]
  cases hsync : syncEpoch info with
  | error e => trivial
  | ok epoch' =>
    obtain rfl : epoch' = epoch := by
      cases info with
      | obj kvs =>
        simp only [syncEpoch, hinfo] at hsync
        cases epoch with
        | nil => exact (raise_ne_ok hsync).elim
        | cons c cs => exact (Except.ok.inj hsync).symm
      | _ => exact (raise_ne_ok hsync).elim
    rw [thenOk_ok, ensures_bind]
    apply (startState_drifting (hw₁.covered hcovered)).post
    rintro (e | ⟨state, reset⟩) w₃ h
    · trivial
    obtain ⟨hw₃, hstate⟩ := h
    have hp₃ : w.peer.Follows w₃.peer := (hw₁.since.trans hw₃).peer
    rw [thenOk_ok, ensures_bind]
    apply (syncPages_drifting hp₃ hstate).post
    rintro (e | x) w₄ h
    · trivial
    obtain ⟨hw₄, hstate, hrecords⟩ := h
    rw [thenOk_ok, ensures_bind]
    apply (syncPages_drifting (hp₃.trans hw₄.peer) hstate).post
    rintro (e | x) w₅ h
    · trivial
    obtain ⟨hw₅, hstate, hbatches⟩ := h
    rw [thenOk_ok, ensures_bind]
    apply (syncPages_drifting (hp₃.trans (hw₄.trans hw₅).peer) hstate).post
    rintro (e | x) w₆ h
    · trivial
    obtain ⟨hw₆, -, -⟩ := h
    have hall := (hrecords (by decide)).resolve_right (by rintro ⟨h, -⟩; cases h)
    intro kind hkind v hv
    apply hw₆.client.stored hkind
    cases kind with
    | records => exact hw₅.client.stored hkind (hall v hv)
    | batches =>
      -- The records of these batches have come before them.
      refine (hbatches hkind).resolve_right ?_ v hv
      rintro ⟨-, b, hb, i, hi, hnot⟩
      obtain ⟨row, hrow, rfl⟩ := w.peer.closed b hb i hi
      exact hnot (hall row.body (List.mem_map_of_mem hrow))
    | anchors => exact absurd rfl hkind

def cycles (peer : PyStr) : Set (Syncing SyncResult) :=
  {p | ∃ pageSize maxPages, p = syncPeer peer pageSize maxPages}

def World.PeerActs (w w' : World) : Prop :=
  w'.client = w.client ∧ w'.saved = w.saved ∧ w.peer.Acts w'.peer

def World.Unsynced (peer epoch key : PyStr) (w : World) : Prop :=
  ∀ state, w.saved key = some state → state.peer = normalized peer → state.syncEpoch ≠ epoch

theorem World.PeerActs.drifts (h : w.PeerActs w') : w.Drifts peer epoch key w' := by
  obtain ⟨hclient, hsaved, hacts⟩ := h
  have hsince : w.Since w' := ⟨by rw [hclient]; exact w.client.grows_refl, hacts.follows⟩
  refine ⟨hsince, fun hc state hstate hpeer hepoch => ?_⟩
  rw [hsaved] at hstate
  exact (hc state hstate hpeer hepoch).since hsince

/-- At every moment of the cycles with a peer that fills its tables meanwhile, the records and the
batches up to the saved numbers are stored; and a cycle that returns while the peer does nothing has
stored all of them. -/
theorem peer_sync_loses_nothing (rpcAnswers : Answers) (hkey : peerKey peer = .ok key) :
    (∀ p w, Session (syncing rpcAnswers epoch) World.PeerActs (cycles peer)
        (World.Unsynced peer epoch key) p w →
      ∀ state, w.saved key = some state → state.peer = normalized peer →
        state.syncEpoch = epoch → ∀ kind ≠ .anchors, ∀ row ∈ w.peer.served kind,
          (row.1 : ℤ) ≤ state.seqs kind → w.client.Stored kind row.2) ∧
    ∀ w, Session (syncing rpcAnswers epoch) World.PeerActs (cycles peer)
        (World.Unsynced peer epoch key) none w →
      ∀ pageSize maxPages result w',
        (syncPeer peer pageSize maxPages).Exec (syncing rpcAnswers epoch) w (.ok result) w' →
          ∀ kind ≠ .anchors, ∀ v ∈ w.peer.store.bodies kind, w'.client.Stored kind v := by
  have hrefl : ∀ w : World, w.Drifts peer epoch key w := fun w => ⟨w.since_refl, id⟩
  have hcovered : ∀ p w, Session (syncing rpcAnswers epoch) World.PeerActs (cycles peer)
      (World.Unsynced peer epoch key) p w → w.Covered peer epoch key := by
    intro p w h
    refine (h.invariant (R := World.Drifts peer epoch key) hrefl ?_ ?_ ?_ ?_).1
    · exact fun _ _ _ h h' => h.trans h'
    · exact fun w hw state hstate hpeer hepoch => absurd hepoch (hw state hstate hpeer)
    · exact fun w w' hacts => ⟨hacts.drifts, hacts.drifts.covered⟩
    · rintro _ ⟨pageSize, maxPages, rfl⟩ w hw
      exact (syncPeer_drifting hkey hw).mono (fun _ _ => id) (fun _ _ h => h.keepsCovered)
        fun _ _ _ => trivial
  refine ⟨fun p w h state hstate hpeer hepoch kind hkind => ?_, ?_⟩
  · exact (hcovered p w h state hstate hpeer hepoch kind hkind).stored
  · intro w h pageSize maxPages result w' hx
    exact Ensures.exec hrefl (syncPeer_drifting hkey (hcovered none w h)) hx

end Company

section Witness

attribute [local instance] conformanceKeys

/-- A peer with the record of the conformance vector, without its batch. -/
def recordPeer : Peer where
  store := (Store.empty.run (.addRecord ⟨conformanceRecord, conformanceRecord_valid⟩)).2
  seqs := fun
    | .records => [3]
    | _ => []
  length_seqs := by
    intro kind
    cases kind <;> rfl
  sorted := by
    intro kind
    cases kind <;> decide
  closed := fun _ hb => absurd hb Table.not_mem_empty

def batchPeer : Peer where
  store := conformanceStore
  seqs := fun
    | .records => [3]
    | .batches => [7]
    | .anchors => []
  length_seqs := by
    intro kind
    cases kind <;> rfl
  sorted := by
    intro kind
    cases kind <;> decide
  closed := recordPeer.closed.run _

theorem recordPeer_acts : recordPeer.Acts batchPeer := by
  refine ⟨⟨_, .addBatch storedBatch, rfl⟩, fun kind => ?_⟩
  cases kind with
  | batches => exact List.nil_prefix
  | _ => exact List.prefix_rfl

def sampleUrl : PyStr := "http://127.0.0.1:8600/"
def sampleKey : PyStr := (peerKey sampleUrl).toOption.getD []

theorem sampleKey_ok : peerKey sampleUrl = .ok sampleKey := by
  have hsome : (peerKey sampleUrl).toOption.isSome = true := by decide +kernel
  rw [sampleKey]
  cases h : peerKey sampleUrl with
  | ok key => rfl
  | error e => rw [h] at hsome; cases hsome

/-- An empty node syncs with a peer that has just got a batch. -/
theorem peer_sync_loses_nothing_sample : ∃ result w',
    (syncPeer sampleUrl 100 10).Exec (syncing sampleOld.truthful "epoch")
      ⟨.empty, fun _ => none, batchPeer⟩ (.ok result) w' ∧
    (∃ row ∈ w'.client.records, row.recordId = conformanceRecord.text "record_id") ∧
    ∃ b ∈ w'.client.batches, b.batchId = conformanceBatch.text "batch_id" := by
  have hstart : Session (syncing sampleOld.truthful "epoch") World.PeerActs (cycles sampleUrl)
      (World.Unsynced sampleUrl "epoch" sampleKey) none ⟨.empty, fun _ => none, recordPeer⟩ :=
    .start nofun
  have hacts : Session (syncing sampleOld.truthful "epoch") World.PeerActs (cycles sampleUrl)
      (World.Unsynced sampleUrl "epoch" sampleKey) none ⟨.empty, fun _ => none, batchPeer⟩ :=
    .env hstart ⟨rfl, rfl, recordPeer_acts⟩
  have hok : ((syncPeer sampleUrl 100 10).eval (syncOracle sampleOld "epoch")
      ⟨.empty, fun _ => none, batchPeer⟩).1.toOption.isSome = true := by
    decide +kernel
  obtain ⟨result, hx⟩ := exec_eval_ok (@obeys_syncOracle _ sampleOld "epoch") hok
  have hall := (peer_sync_loses_nothing sampleOld.truthful sampleKey_ok).2 _ hacts 100 10 result _ hx
  exact ⟨result, _, hx, hall .records nofun conformanceRecord List.mem_cons_self,
    hall .batches nofun conformanceBatch List.mem_cons_self⟩

end Witness

end HistoryAnchor

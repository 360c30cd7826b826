import HistoryAnchor.Sync.Gossip
import Mathlib.Data.Set.Lattice

/-! # Agreement

A round stores nothing that neither its node nor one of its peers knew. While only rounds
run, what is known in the network is therefore what was known when they began, and in the
end every node that finds all others knows all of it.
-/

namespace HistoryAnchor

open Python Effects Prog Tables

section Agreement

variable [Ed25519] {kind : SyncKind} {α β ι : Type} {s t : Store} {w w' : World} {p : Peer}
  {K : SyncKind → Set PyStr} {rpcAnswers : Answers} {epoch key : PyStr}

def SyncKind.identifier : SyncKind → PyStr
  | records => "record_id"
  | batches => "batch_id"
  | anchors => "txid"

def Store.known (s : Store) (kind : SyncKind) : Set PyStr :=
  {i | ∃ v ∈ s.bodies kind, v.text kind.identifier = i}

def Store.KnowsOnly (K : SyncKind → Set PyStr) (s : Store) : Prop :=
  ∀ kind ≠ .anchors, s.known kind ⊆ K kind

theorem Store.stored_iff {v : Json} (hkind : kind ≠ .anchors) :
    s.Stored kind v ↔ v.text kind.identifier ∈ s.known kind := by
  cases kind with
  | records =>
    constructor
    · rintro ⟨row, hrow, hid⟩
      exact ⟨row.body, List.mem_map_of_mem hrow, hid⟩
    · rintro ⟨_, hv, hid⟩
      obtain ⟨row, hrow, rfl⟩ := List.mem_map.mp hv
      exact ⟨row, hrow, hid⟩
  | batches =>
    constructor
    · rintro ⟨b, hb, hid⟩
      exact ⟨b.body, List.mem_map_of_mem hb, hid⟩
    · rintro ⟨_, hv, hid⟩
      obtain ⟨b, hb, rfl⟩ := List.mem_map.mp hv
      exact ⟨b, hb, hid⟩
  | anchors => exact absurd rfl hkind

def StorageCall.Brings (K : SyncKind → Set PyStr) : StorageCall β → Prop
  | .addRecord r => r.recordId ∈ K .records
  | .addBatch b => b.batchId ∈ K .batches
  | _ => True

theorem Store.bodies_run {c : StorageCall β} {v : Json} (hkind : kind ≠ .anchors)
    (hv : v ∈ (s.run c).2.bodies kind) : v ∈ s.bodies kind ∨
      ∀ K, c.Brings K → v.text kind.identifier ∈ K kind := by
  cases kind with
  | anchors => exact absurd rfl hkind
  | records =>
    obtain ⟨row, hrow, rfl⟩ := List.mem_map.mp hv
    have hsame : (s.run c).2.records = s.records → row.body ∈ s.bodies .records := by
      intro he
      rw [he] at hrow
      exact List.mem_map_of_mem hrow
    cases c with
    | addRecord r =>
      rcases Table.mem_insertIgnore.mp hrow with hold | ⟨rfl, -⟩
      · exact Or.inl (List.mem_map_of_mem hold)
      · exact Or.inr fun _ h => h
    | addBatch b =>
      refine Or.inl (hsame ?_)
      simp only [run, records_addBatch]
    | addAnchor a =>
      refine Or.inl (hsame ?_)
      simp only [run, records_addAnchor]
    | addScannedBlock row =>
      refine Or.inl (hsame ?_)
      simp only [run, addScannedBlock]
      split_ifs <;> rfl
    | addCommitment c =>
      refine Or.inl (hsame ?_)
      simp only [run, addCommitment]
      split_ifs <;> rfl
    | _ => exact Or.inl (hsame rfl)
  | batches =>
    obtain ⟨b, hb, rfl⟩ := List.mem_map.mp hv
    have hsame : (s.run c).2.batches = s.batches → b.body ∈ s.bodies .batches := by
      intro he
      rw [he] at hb
      exact List.mem_map_of_mem hb
    rcases run_batches (s := s) c with ⟨he, -⟩ | ⟨b', hrec, hstores, he⟩
    · exact Or.inl (hsame he)
    · rw [he] at hb
      rcases Table.mem_insertIgnore.mp hb with hold | ⟨rfl, -⟩
      · exact Or.inl (List.mem_map_of_mem hold)
      · refine Or.inr fun K hK => ?_
        cases c with
        | addBatch b'' =>
          obtain rfl : b = b'' := hstores {b''} rfl
          exact hK
        | _ => exact (hstores ∅ trivial).elim

theorem Store.KnowsOnly.run {c : StorageCall β} (h : s.KnowsOnly K) (hc : c.Brings K) :
    (s.run c).2.KnowsOnly K := by
  rintro kind hkind _ ⟨v, hv, rfl⟩
  rcases bodies_run hkind hv with hold | hnew
  · exact h kind hkind ⟨v, hold, rfl⟩
  · exact hnew K hc

/-- The call of the node stores nothing with another identifier. -/
def NodeCall.Brings (K : SyncKind → Set PyStr) : NodeCall β → Prop
  | .storage c => c.Brings K
  | _ => True

theorem importBatch_brings {batch : Json} (h : batch.text "batch_id" ∈ K .batches) :
    (Service.importBatch batch).Calls fun _ c => c.Brings K := by
  unfold Service.importBatch
  split
  · exact calls_raise _
  · refine Calls.bind (calls_foldlM (fun n recordId => ?_) _ 0) fun missing => ?_
    · exact (calls_perform trivial).bind fun _ => calls_ret _
    · refine (calls_ofExcept _).bind fun _ => ?_
      exact (calls_perform h).bind fun _ => calls_ret _

theorem importAnchorReference_brings (anchor : Json) :
    (Service.importAnchorReference anchor).Calls fun _ c => c.Brings K := by
  refine (calls_ofExcept _).bind fun _ => (calls_perform trivial).bind fun batch => ?_
  cases batch with
  | none => exact calls_raise _
  | some batch =>
    refine (calls_ofExcept _).bind fun _ => (calls_perform trivial).bind fun existing => ?_
    refine (calls_ofExcept _).bind fun _ => (calls_perform trivial).bind fun _ => calls_ret _

theorem importItem_brings {v : Json} (h : kind ≠ .anchors → v.text kind.identifier ∈ K kind) :
    (importItem kind v).Calls fun _ c => c.Brings K := by
  cases kind with
  | records =>
    exact Service.submitRecord_calls_of (fun _ => trivial) (fun _ => h (by decide)) _ _
  | batches => exact importBatch_brings (h (by decide))
  | anchors => exact importAnchorReference_brings v

def World.KnowsOnly (K : SyncKind → Set PyStr) (w : World) : Prop :=
  w.client.KnowsOnly K ∧ w.peer.store.KnowsOnly K

theorem World.KnowsOnly.call {c : SyncCall β} {x : Py β} (hw : w.KnowsOnly K)
    (hc : ∀ c', c = .node c' → c'.Brings K) (h : syncing rpcAnswers epoch c w x w') :
    w'.KnowsOnly K := by
  cases c with
  | node c =>
    obtain ⟨hcall, -, hpeer⟩ := h
    have hbrings := hc c rfl
    refine ⟨?_, hpeer ▸ hw.2⟩
    cases c with
    | storage c =>
      rw [show w'.client = (w.client.run c).2 from congrArg Prod.snd hcall]
      exact hw.1.run hbrings
    | rpc c => exact hcall.2 ▸ hw.1
    | outside c => exact hcall.2 ▸ hw.1
  | peer c =>
    obtain ⟨hpeer, hclient⟩ := Network.syncing_cases h
    cases c with
    | info => exact h.1 ▸ hw
    | page kind afterSeq limit => exact h.1 ▸ hw
    | peerSyncState key => exact h.1 ▸ hw
    | setPeerSyncState key state =>
      rw [h.2]
      exact hw

theorem peerCall_inside {c : PeerCall β} {Q : Py β → World → Prop}
    (h : ∀ w₁, w₁.KnowsOnly K → ∀ x w₂, c.Answered epoch w₁ x w₂ → Q x w₂) :
    (peerCall c).Maintains (syncing rpcAnswers epoch) (World.KnowsOnly K) Q w := by
  rw [peerCall, Maintains, ensures_perform]
  intro w₁ hw₁ x w₂ hc
  exact ⟨hw₁.call (fun _ he => by cases he) hc, h w₁ hw₁ x w₂ hc⟩

theorem getPage_inside {afterSeq limit : ℤ} :
    (getPage kind afterSeq limit).Maintains (syncing rpcAnswers epoch) (World.KnowsOnly K)
      (thenOk (fun page _ => kind ≠ .anchors → ∀ v ∈ page.items, v.text kind.identifier ∈ K kind)
        fun _ _ => True) w := by
  rw [getPage, bind_eq, Maintains, ensures_bind]
  apply peerCall_inside
  rintro w₁ hw₁ x w₂ ⟨rfl, ⟨e, rfl⟩ | rfl⟩
  · trivial
  · cases hv : w₂.peer.answer kind afterSeq limit with
    | error e => trivial
    | ok v =>
      rw [thenOk_ok, ensures_ofExcept]
      cases hpage : readPage kind v with
      | error e => trivial
      | ok page =>
        intro hkind u hu
        obtain ⟨hlimit, hitems, -⟩ := readPage_rows hv hpage
        rw [hitems] at hu
        obtain ⟨row, hrow, rfl⟩ := List.mem_map.mp hu
        have hserved := ((covers_pageRows Peer.numbered_served hlimit).subset row hrow).1
        exact hw₁.2 kind hkind ⟨row.2, Peer.mem_bodies_of_served hserved, rfl⟩

theorem importItems_inside {items : List Json} {result : SyncResult}
    (h : kind ≠ .anchors → ∀ v ∈ items, v.text kind.identifier ∈ K kind) :
    (importItems kind items result).Maintains (syncing rpcAnswers epoch) (World.KnowsOnly K)
      (fun _ _ => True) w := by
  induction items generalizing result w with
  | nil => trivial
  | cons v items ih =>
    have hrest := fun hkind x hx => h hkind x (List.mem_cons_of_mem v hx)
    have hitem : (atNode (importItem kind v)).Calls fun _ c => ∀ c', c = .node c' → c'.Brings K :=
      (importItem_brings fun hkind => h hkind v List.mem_cons_self).embed fun β c hc c' he => by
        cases he
        exact hc
    simp only [importItems, bind_eq, Maintains, ensures_bind, ensures_outcome]
    apply (hitem.maintains (I := World.KnowsOnly K) (fun β c w x w' hc hw h => hw.call hc h) w).post
    rintro r w₁ -
    rw [thenOk_ok]
    cases r with
    | ok status => exact ih hrest
    | error e =>
      dsimp only
      split_ifs
      · trivial
      · exact ih hrest
      · trivial

theorem syncPages_inside {pageSize : ℤ} {maxPages pages : ℕ} {state : SyncState}
    {result : SyncResult} :
    (syncPages key kind pageSize maxPages pages state result).Maintains (syncing rpcAnswers epoch)
      (World.KnowsOnly K) (fun _ _ => True) w := by
  induction pages generalizing state result w with
  | zero => trivial
  | succ pages ih =>
    simp only [syncPages, bind_eq, Maintains, ensures_bind]
    apply (getPage_inside).post
    rintro (e | page) w₁ hpage
    · trivial
    rw [thenOk_ok, ensures_bind, ensures_ofExcept]
    by_cases hadvance : page.items = [] ∨ state.seqs kind < page.seq
    swap
    · rw [require, if_neg hadvance]
      trivial
    rw [require, if_pos hadvance, thenOk_ok, ensures_bind]
    apply (importItems_inside hpage).post
    rintro (e | ⟨result', missing⟩) w₂ -
    · trivial
    cases missing with
    | true => trivial
    | false =>
      simp only [thenOk_ok, Bool.false_eq_true, if_false, ensures_bind]
      apply peerCall_inside
      rintro w₃ - (e | x) w₄ -
      · trivial
      rw [thenOk_ok]
      split_ifs
      · exact ih
      · trivial

theorem syncPeer_inside {peer : PyStr} {pageSize : ℤ} {maxPages : ℕ} :
    (syncPeer peer pageSize maxPages).Maintains (syncing rpcAnswers epoch) (World.KnowsOnly K)
      (fun _ _ => True) w := by
  simp only [syncPeer, bind_eq, Maintains, ensures_bind, ensures_ofExcept]
  rcases peerKey peer with e | key
  · trivial
  rw [thenOk_ok, ensures_bind]
  apply peerCall_inside
  rintro w₁ - (e | info) w₂ -
  · trivial
  rw [thenOk_ok, ensures_bind, ensures_ofExcept]
  rcases syncEpoch info with e | epoch'
  · trivial
  rw [thenOk_ok, ensures_bind]
  have hstart : (startState key peer epoch').Maintains (syncing rpcAnswers epoch) (World.KnowsOnly K)
      (fun _ _ => True) w₂ := by
    simp only [startState, bind_eq, Maintains, ensures_bind]
    apply peerCall_inside
    rintro w₁ - (e | saved) w₂ -
    · trivial
    rw [thenOk_ok]
    split_ifs
    · rw [ensures_bind]
      apply peerCall_inside
      rintro w₃ - (e | x) w₄ - <;> trivial
    · trivial
  apply hstart.post
  rintro (e | ⟨state, reset⟩) w₃ -
  · trivial
  rw [thenOk_ok, ensures_bind]
  apply syncPages_inside.post
  rintro (e | x) w₄ -
  · trivial
  rw [thenOk_ok, ensures_bind]
  apply syncPages_inside.post
  rintro (e | x) w₅ -
  · trivial
  rw [thenOk_ok, ensures_bind]
  apply syncPages_inside.post
  rintro (e | x) w₆ - <;> trivial

section Quiet

variable {T : Topology ι} {n n' n₀ : Network ι} {i j : ι} {peersOf : ι → List PyStr}
  {m m' : List (Gossip ι Unit) × Network ι}

def Network.KnowsOnly (K : SyncKind → Set PyStr) (n : Network ι) : Prop :=
  ∀ i, (n i).node.store.KnowsOnly K

theorem atSite_inside {peer : PyStr} {p : Syncing α} (hn : n.KnowsOnly K)
    (h : p.Maintains (syncing (T.rpcAnswers i) (T.epoch (T.server peer))) (World.KnowsOnly K)
      (fun _ _ => True) (n.world T i peer)) :
    (atSite i peer p).Maintains (gossiping T) (Network.KnowsOnly K)
      (fun _ n' => n'.KnowsOnly K) n := by
  refine (h.embed (fun n => n.world T i peer) (Network.KnowsOnly K) (fun _ _ _ _ h => h)
    (fun _ _ _ _ _ => trivial) ?_ ?_ hn).post fun _ _ h => h.2
  · intro n₁ n₂ _ hn₂
    exact ⟨hn₂, hn₂ i, hn₂ _⟩
  · rintro β c n₁ x n₂ hn₁ ⟨hothers, -, hcall⟩
    refine ⟨_, hcall, fun hu => ?_⟩
    have hn₂ : n₂.KnowsOnly K := by
      intro k
      by_cases hk : k = i
      · exact hk ▸ hu.1
      · exact hothers k hk ▸ hn₁ k
    exact ⟨hn₂, hn₂, hn₂ i, hn₂ _⟩

theorem syncAllPeers_inside (i : ι) (pageSize : ℤ) (maxPages : ℕ) (peers : List PyStr)
    (hn : n.KnowsOnly K) : (syncAllPeers i pageSize maxPages peers).Maintains (gossiping T)
      (Network.KnowsOnly K) (fun _ _ => True) n := by
  induction peers generalizing n with
  | nil => trivial
  | cons peer peers ih =>
    simp only [syncAllPeers, bind_eq, Maintains, ensures_bind, ensures_outcome]
    apply (atSite_inside hn syncPeer_inside).post
    rintro r n₁ hn₁
    rw [thenOk_ok]
    simp only [ensures_bind]
    apply (ih hn₁).post
    rintro (e | reports) n₂ - <;> trivial

abbrev Network.Keeps (K : SyncKind → Set PyStr) (n n' : Network ι) : Prop :=
  n.KnowsOnly K → n'.KnowsOnly K

theorem Gossip.rounds_guards {p : Gossip ι Unit} (hp : p ∈ Gossip.rounds) (hn : n.KnowsOnly K) :
    p.Guards (gossiping T) (Network.Keeps K) (Network.KnowsOnly K) n := by
  obtain ⟨i, pageSize, maxPages, peers, rfl⟩ := hp
  apply Ensures.keeping hn
  rw [bind_eq, Maintains, ensures_bind]
  apply (syncAllPeers_inside i pageSize maxPages peers hn).post
  rintro (e | reports) n' - <;> trivial

theorem Network.Period.inside (i : ι) (h : Network.Period T Gossip.rounds peersOf m m')
    (hm : Pool.Guarded (gossiping T) (Network.Keeps K) (Network.KnowsOnly K) m) :
    Pool.Guarded (gossiping T) (Network.Keeps K) (Network.KnowsOnly K) m' := by
  obtain ⟨⟨ps₁, n₁⟩, ⟨ps₂, n₂⟩, reports, hbefore, ⟨pageSize, maxPages, hrun⟩, -, hafter⟩ := h i
  have hrefl : ∀ n : Network ι, n.Keeps K n := fun _ => id
  have htrans : ∀ a b c : Network ι, a.Keeps K b → b.Keeps K c → a.Keeps K c :=
    fun _ _ _ h h' hn => h' (h hn)
  have hops : ∀ p ∈ Gossip.rounds, ∀ n : Network ι, n.KnowsOnly K →
      p.Guards (gossiping T) (Network.Keeps K) (Network.KnowsOnly K) n :=
    fun _ hp _ hn => Gossip.rounds_guards hp hn
  obtain ⟨hm₁, -⟩ := hbefore.guarded hrefl htrans hops hm
  have hround := (syncAllPeers_inside (T := T) i pageSize maxPages (peersOf i) hm₁.holds).keeping
    hm₁.holds
  obtain ⟨hm₂, -, -⟩ := Beside.ensures hrefl htrans hops (fun _ _ _ _ _ => trivial) hrun hm₁ hround
  exact (hafter.guarded hrefl htrans hops hm₂).1

theorem Network.periods_inside {C : ℕ → List (Gossip ι Unit) × Network ι} {d : ℕ} (i : ι)
    (hC : Pool.Guarded (gossiping T) (Network.Keeps K) (Network.KnowsOnly K) (C 0))
    (h : ∀ t < d, Network.Period T Gossip.rounds peersOf (C t) (C (t + 1))) :
    (C d).2.KnowsOnly K := by
  have hall : ∀ t ≤ d, Pool.Guarded (gossiping T) (Network.Keeps K) (Network.KnowsOnly K) (C t) := by
    intro t
    induction t with
    | zero => exact fun _ => hC
    | succ t ih => exact fun ht => (h t (by omega)).inside i (ih (by omega))
  exact (hall d le_rfl).holds

/-- In any run of the network in which the nodes begin without saved states: from a moment at which
no program runs, let only rounds run. After so many periods, a node that finds all others through so
many hops knows the records and batches that anybody knew at that moment, and no others. So nodes
that all find each other agree. -/
theorem gossip_agrees {C : ℕ → List (Gossip ι Unit) × Network ι} {d : ℕ}
    (h₀ : ∀ i key, (n₀ i).saved key = none)
    (hstart : Pool (gossiping T) Gossip.programs n₀ [] n) (hC : C 0 = ([], n))
    (h : ∀ t < d, Network.Period T Gossip.rounds peersOf (C t) (C (t + 1)))
    (hreach : ∀ j, T.Within peersOf j d i) :
    ∀ kind ≠ .anchors,
      ((C d).2 i).node.store.known kind = ⋃ j, (n j).node.store.known kind := by
  intro kind hkind
  apply Set.Subset.antisymm
  · have hquiet : Pool.Guarded (gossiping T)
        (Network.Keeps fun kind => ⋃ j, (n j).node.store.known kind)
        (Network.KnowsOnly fun kind => ⋃ j, (n j).node.store.known kind) (C 0) := by
      rw [hC]
      exact ⟨fun j kind _ => Set.subset_iUnion (fun j => (n j).node.store.known kind) j,
        fun _ h => absurd h List.not_mem_nil⟩
    exact Network.periods_inside i hquiet h i kind hkind
  · refine Set.iUnion_subset fun j => ?_
    rintro _ ⟨v, hv, rfl⟩
    have hguarded : Network.Guarded T (C 0) := hC ▸ Network.guarded_of_pool (m := ([], n)) h₀ hstart
    have harrived := Network.periods_delivered Gossip.rounds_subset hguarded (hreach j) h
    rw [hC] at harrived
    exact (Store.stored_iff hkind).mp (harrived kind hkind v hv)

end Quiet

end Agreement

section Witness

attribute [local instance] conformanceKeys

/-- A period of the sample network, after which the node that syncs knows what both knew. -/
theorem gossip_agrees_sample : ∃ n', Network.Period sampleTopology Gossip.rounds samplePeers
      ([], sampleNetwork) ([], n') ∧
    ∀ kind ≠ .anchors, (n' false).node.store.known kind =
      ⋃ j, (sampleNetwork j).node.store.known kind := by
  have hops : (Gossip.rounds : Set (Gossip Bool Unit)) ⊆ Gossip.rounds := fun _ => id
  obtain ⟨n', hperiod⟩ := exists_samplePeriod hops
  refine ⟨n', hperiod, ?_⟩
  have hreach : ∀ j, sampleTopology.Within samplePeers j 1 false := by
    intro j
    cases j with
    | true => exact sampleTopology_within
    | false => exact .here 1
  have hagree := gossip_agrees (C := fun t => if t = 0 then ([], sampleNetwork) else ([], n'))
    (fun _ _ => rfl) .refl rfl (fun t ht => ?_) hreach
  · exact hagree
  · obtain rfl : t = 0 := by omega
    exact hperiod

end Witness

end HistoryAnchor

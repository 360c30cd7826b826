import HistoryAnchor.Effects.Expansion
import HistoryAnchor.Sync.Company
import Mathlib.Algebra.Order.BigOperators.Group.List
import Mathlib.Algebra.Order.Group.Nat

/-! # Gossip

Nodes serve each other and sync in rounds, each from the peers that it knows. All their
programs run together, call by call. A round delivers what its peers had when it began,
so that news spreads by one hop in each period in which every node finishes a round.
-/

namespace HistoryAnchor

open Python Effects Prog Tables

section Network

variable [Ed25519] {kind : SyncKind} {α β : Type} {s t : Store} {w w' : World}

/-- What `sync_all_peers` reports of one peer. -/
structure Report where
  result : SyncResult
  reason : Option PyStr

/-- A node: its store, the numbers of its rows, and what it has saved about its peers. -/
structure Site where
  node : Peer
  saved : PyStr → Option SyncState

abbrev Network (ι : Type) := ι → Site

/-- A call of a program at a node that talks to a peer. -/
structure NetCall (ι β : Type) where
  site : ι
  peer : PyStr
  call : SyncCall β

abbrev Gossip (ι : Type) := Prog (NetCall ι) Exc

/-- Who answers at a URL, in which epoch, and what Bitcoin Core answers to each node. -/
structure Topology (ι : Type) where
  host : PyStr → ι
  epoch : ι → PyStr
  rpcAnswers : ι → Answers

variable {ι : Type}

def atSite (i : ι) (peer : PyStr) (p : Syncing α) : Gossip ι α := p.embed fun _ c => ⟨i, peer, c⟩

def Topology.server (T : Topology ι) (peer : PyStr) : ι := T.host (normalized peer)

def Network.world (T : Topology ι) (n : Network ι) (i : ι) (peer : PyStr) : World :=
  ⟨(n i).node.store, (n i).saved, (n (T.server peer)).node⟩

/-- One node acts and all others stay as they are; new rows get numbers after all others. -/
def gossiping (T : Topology ι) : Handler (NetCall ι) Exc (Network ι) :=
  fun _ c n x n' => (∀ j ≠ c.site, n' j = n j) ∧
    (∀ kind, (n c.site).node.seqs kind <+: (n' c.site).node.seqs kind) ∧
    syncing (T.rpcAnswers c.site) (T.epoch (T.server c.peer)) c.call (n.world T c.site c.peer) x
      { n.world T c.site c.peer with
        client := (n' c.site).node.store
        saved := (n' c.site).saved }

/-- `sync_all_peers`. -/
def syncAllPeers (i : ι) (pageSize : ℤ) (maxPages : ℕ) : List PyStr → Gossip ι (List Report)
  | [] => return []
  | peer :: peers => do
    let outcome ← (atSite i peer (syncPeer peer pageSize maxPages)).outcome
    let report : Report := match outcome with
      | .ok result => ⟨result, none⟩
      | .error e => ⟨⟨peer, fun _ => 0, 1, false⟩, some e.text⟩
    let reports ← syncAllPeers i pageSize maxPages peers
    return report :: reports

/-- The programs of the network: rounds of cycles, and whatever else a node does. -/
inductive Gossip.Runs : Gossip ι Unit → Prop
  | node (i : ι) (peer : PyStr) (p : Node Unit) : Runs (atSite i peer (atNode p))
  | round (i : ι) (pageSize : ℤ) (maxPages : ℕ) (peers : List PyStr) :
      Runs (do let _ ← syncAllPeers i pageSize maxPages peers)

def Gossip.programs : Set (Gossip ι Unit) := {p | Gossip.Runs p}

def Gossip.rounds : Set (Gossip ι Unit) :=
  {p | ∃ i pageSize maxPages peers, p = (do let _ ← syncAllPeers i pageSize maxPages peers)}

theorem Gossip.rounds_subset : (Gossip.rounds : Set (Gossip ι Unit)) ⊆ Gossip.programs := by
  rintro _ ⟨i, pageSize, maxPages, peers, rfl⟩
  exact .round i pageSize maxPages peers

theorem Store.stored_of_mem {v : Json} (hkind : kind ≠ .anchors) (hv : v ∈ s.bodies kind) :
    s.Stored kind v := by
  cases kind with
  | records =>
    obtain ⟨row, hrow, rfl⟩ := List.mem_map.mp hv
    exact ⟨row, hrow, rfl⟩
  | batches =>
    obtain ⟨b, hb, rfl⟩ := List.mem_map.mp hv
    exact ⟨b, hb, rfl⟩
  | anchors => exact absurd rfl hkind

namespace Network

variable {T : Topology ι} {n n' n'' : Network ι} {i j : ι}

/-- Records and batches stay, and the rows of every node are only appended. -/
def Grows (n n' : Network ι) : Prop :=
  ∀ i, (n i).node.store.Grows (n' i).node.store ∧ (n i).node.Follows (n' i).node

theorem grows_refl (n : Network ι) : n.Grows n := fun i =>
  ⟨(n i).node.store.grows_refl, (n i).node.follows_refl⟩

theorem Grows.trans (h : n.Grows n') (h' : n'.Grows n'') : n.Grows n'' := fun i =>
  ⟨(h i).1.trans (h' i).1, (h i).2.trans (h' i).2⟩

def Sound (T : Topology ι) (n : Network ι) : Prop :=
  ∀ i key state, (n i).saved key = some state → state.syncEpoch = T.epoch (T.host state.peer) →
    state.Holds ⟨(n i).node.store, (n i).saved, (n (T.host state.peer)).node⟩

theorem Sound.covered (h : n.Sound T) (i : ι) (peer key : PyStr) :
    (n.world T i peer).Covered peer (T.epoch (T.server peer)) key := by
  intro state hstate hpeer hepoch
  have hholds := h i key state hstate (by rw [hpeer]; exact hepoch)
  rw [hpeer] at hholds
  exact hholds

theorem Grows.since (h : n.Grows n') (i : ι) (peer : PyStr) :
    (n.world T i peer).Since (n'.world T i peer) :=
  ⟨(h i).1, (h (T.server peer)).2⟩

/-- A call of a cycle leaves the peer alone, and at the node it is a call to its storage at most. -/
theorem syncing_cases {rpcAnswers : Answers} {epoch : PyStr} {c : SyncCall β} {x : Py β}
    (h : syncing rpcAnswers epoch c w x w') : w'.peer = w.peer ∧ (w'.client = w.client ∨
      ∃ (γ : Type) (c : StorageCall γ), w'.client = (w.client.run c).2) := by
  cases c with
  | node c =>
    obtain ⟨hc, -, hpeer⟩ := h
    refine ⟨hpeer, ?_⟩
    cases c with
    | storage c => exact Or.inr ⟨_, c, congrArg Prod.snd hc⟩
    | rpc c => exact Or.inl hc.2
    | outside c => exact Or.inl hc.2
  | peer c =>
    cases c with
    | info => exact ⟨congrArg World.peer h.1, Or.inl (congrArg World.client h.1)⟩
    | page kind afterSeq limit => exact ⟨congrArg World.peer h.1, Or.inl (congrArg World.client h.1)⟩
    | peerSyncState key => exact ⟨congrArg World.peer h.1, Or.inl (congrArg World.client h.1)⟩
    | setPeerSyncState key state => exact ⟨by rw [h.2], Or.inl (by rw [h.2])⟩

theorem syncing_prefix {rpcAnswers : Answers} {epoch : PyStr} {c : SyncCall β} {x : Py β}
    (hkind : kind ≠ .anchors) (h : syncing rpcAnswers epoch c w x w') :
    w.client.bodies kind <+: w'.client.bodies kind := by
  rcases (syncing_cases h).2 with hsame | ⟨γ, c, hrun⟩
  · exact hsame ▸ List.prefix_rfl
  · rw [hrun]
    cases kind with
    | records => exact (Store.prefix_records_run c).map _
    | batches => exact (Store.prefix_batches_run c).map _
    | anchors => exact absurd rfl hkind

theorem follows_of_bodies {p q : Peer}
    (hbodies : ∀ kind ≠ .anchors, p.store.bodies kind <+: q.store.bodies kind)
    (hseqs : ∀ kind, p.seqs kind <+: q.seqs kind) : p.Follows q := by
  intro kind hkind
  obtain ⟨seqs, hseqs⟩ := hseqs kind
  obtain ⟨bodies, hbodies⟩ := hbodies kind hkind
  rw [Peer.served, Peer.served, ← hseqs, ← hbodies, List.zip_append (p.length_seqs kind)]
  exact List.prefix_append _ _

theorem grows_of_moves {x : Py β} {c : NetCall ι β} (h : gossiping T c n x n')
    (hm : (n.world T c.site c.peer).Moves c.peer
      { n.world T c.site c.peer with
        client := (n' c.site).node.store
        saved := (n' c.site).saved }) :
    n.Grows n' ∧ (n.Sound T → n'.Sound T) := by
  obtain ⟨hothers, hseqs, hcall⟩ := h
  have hgrows : n.Grows n' := by
    intro k
    by_cases hk : k = c.site
    · subst hk
      exact ⟨hm.client, follows_of_bodies (fun kind hkind => syncing_prefix hkind hcall) hseqs⟩
    · rw [hothers k hk]
      exact n.grows_refl k
  refine ⟨hgrows, fun hsound k key state hstate hepoch => ?_⟩
  have hold : (n k).saved key = some state →
      state.Holds ⟨(n' k).node.store, (n' k).saved, (n' (T.host state.peer)).node⟩ := fun hs =>
    (hsound k key state hs hepoch).since ⟨(hgrows k).1, (hgrows _).2⟩
  by_cases hk : k = c.site
  · subst hk
    rcases hm.saved key state hstate with hs | ⟨hpeer, hholds⟩
    · exact hold hs
    · rw [hpeer]
      exact hholds.since ⟨(n' c.site).node.store.grows_refl, (hgrows _).2⟩
  · rw [hothers k hk] at hstate
    exact hold hstate

/-- What the programs of the network guarantee to each other. -/
abbrev Rely (T : Topology ι) (n n' : Network ι) : Prop := n.Grows n' ∧ (n.Sound T → n'.Sound T)

theorem rely_refl (n : Network ι) : n.Rely T n := ⟨n.grows_refl, id⟩

theorem Rely.trans (h : n.Rely T n') (h' : n'.Rely T n'') : n.Rely T n'' :=
  ⟨h.1.trans h'.1, fun hs => h'.2 (h.2 hs)⟩

theorem atSite_ensures {peer key : PyStr} {p : Syncing α} {Q : Py α → World → Prop}
    (hQ : ∀ r w w', Q r w → w.Drifts peer (T.epoch (T.server peer)) key w' → Q r w')
    (hn : n.Sound T)
    (h : p.Ensures (syncing (T.rpcAnswers i) (T.epoch (T.server peer)))
      (World.Drifts peer (T.epoch (T.server peer)) key) (World.Moves peer) Q (n.world T i peer)) :
    (atSite i peer p).Ensures (gossiping T) (Rely T)
      (fun n n' => n.Rely T n' ∧ (n.Sound T → n'.Sound T))
      (fun r n' => Q r (n'.world T i peer) ∧ n.Grows n' ∧ n'.Sound T) n := by
  have htrans : ∀ a b c : World, a.Drifts peer (T.epoch (T.server peer)) key b →
      b.Drifts peer (T.epoch (T.server peer)) key c →
      a.Drifts peer (T.epoch (T.server peer)) key c := fun _ _ _ h h' => h.trans h'
  apply h.embed (fun n => n.world T i peer) (fun n' => n.Grows n' ∧ n'.Sound T) htrans hQ
  · rintro n₁ n₂ ⟨hg, hn₁⟩ ⟨hgrows, hkeep⟩
    exact ⟨⟨hg.trans hgrows, hkeep hn₁⟩, hgrows.since i peer, fun _ =>
      (hkeep hn₁).covered i peer key⟩
  · rintro β c n₁ x n₂ ⟨hg, hn₁⟩ hc
    refine ⟨_, hc.2.2, fun hm => ?_⟩
    obtain ⟨hgrows, hkeep⟩ := grows_of_moves hc hm
    refine ⟨⟨⟨hgrows, hkeep⟩, hkeep⟩, ⟨hg.trans hgrows, hkeep hn₁⟩, ⟨?_, (hgrows _).2⟩, fun _ =>
      (hkeep hn₁).covered i peer key⟩
    exact (n₂ i).node.store.grows_refl
  · exact ⟨n.grows_refl, hn⟩

/-- Everything that one node had at the first moment is stored by the other at the second. -/
def Delivered (n : Network ι) (j i : ι) (n' : Network ι) : Prop :=
  ∀ kind ≠ .anchors, ∀ v ∈ (n j).node.store.bodies kind, (n' i).node.store.Stored kind v

theorem Delivered.mono {m m' : Network ι} (h : n.Delivered j i n') (hm : m.Grows n)
    (hm' : n'.Grows m') : m.Delivered j i m' := by
  intro kind hkind v hv
  obtain ⟨row, hrow, rfl⟩ := Peer.exists_served hv
  have hrow' := ((hm j).2 kind hkind).subset hrow
  exact (hm' i).1.stored hkind (h kind hkind row.2 (Peer.mem_bodies_of_served hrow'))

theorem Delivered.stored {v : Json} (h : n.Delivered j i n') (hkind : kind ≠ .anchors)
    (hv : (n j).node.store.Stored kind v) : (n' i).node.store.Stored kind v := by
  cases kind with
  | records =>
    obtain ⟨row, hrow, hid⟩ := hv
    have hstored := h .records hkind row.body (List.mem_map_of_mem hrow)
    rw [Store.Stored, ← hid]
    exact hstored
  | batches =>
    obtain ⟨b, hb, hid⟩ := hv
    obtain ⟨b', hb', he⟩ := h .batches hkind b.body (List.mem_map_of_mem hb)
    exact ⟨b', hb', he.trans hid⟩
  | anchors => exact absurd rfl hkind

end Network

section Rounds

variable {T : Topology ι} {n n' n₀ : Network ι} {i j : ι} {ops : Set (Gossip ι Unit)}

theorem node_guards (i : ι) (peer : PyStr) (p : Node α) (hn : n.Sound T) :
    (atSite i peer (atNode p)).Guards (gossiping T) (Network.Rely T) (Network.Sound T) n := by
  have hany : (atNode p).Ensures (syncing (T.rpcAnswers i) (T.epoch (T.server peer)))
      (World.Drifts peer (T.epoch (T.server peer)) []) (World.Moves peer) (fun _ _ => True)
      (n.world T i peer) :=
    (atNode_drifting (Q := fun _ _ => True) (fun _ _ _ _ _ => trivial) (node_growing p _)).post
      fun _ _ _ => trivial
  exact (Network.atSite_ensures (fun _ _ _ _ _ => trivial) hn hany).post fun _ _ _ => trivial

/-- A cycle that returns has delivered everything that the peer had when it began. -/
theorem syncPeer_delivers (i : ι) (peer : PyStr) (pageSize : ℤ) (maxPages : ℕ) (hn : n.Sound T) :
    (atSite i peer (syncPeer peer pageSize maxPages)).Ensures (gossiping T) (Network.Rely T)
      (fun n n' => n.Rely T n' ∧ (n.Sound T → n'.Sound T))
      (fun r n' => ((∃ result, r = .ok result) → n.Delivered (T.server peer) i n') ∧
        n.Grows n' ∧ n'.Sound T) n := by
  cases hkey : peerKey peer with
  | error e =>
    rw [syncPeer, hkey]
    refine ⟨?_, n.grows_refl, hn⟩
    rintro ⟨result, h⟩
    cases h
  | ok key =>
    have hcycle := @syncPeer_drifting _ (T.rpcAnswers i) _ peer key _ hkey (hn.covered i peer key)
      pageSize maxPages
    refine (Network.atSite_ensures ?_ hn hcycle).post ?_
    · rintro (e | result) w w' hw hdrift
      · trivial
      · exact fun kind hkind v hv => hdrift.since.client.stored hkind (hw kind hkind v hv)
    · rintro (e | result) n' ⟨hw, hn'⟩
      · refine ⟨?_, hn'⟩
        rintro ⟨_, h⟩
        cases h
      · exact ⟨fun _ => hw, hn'⟩

/-- What a round has delivered: of every peer that it reports without a reason, everything that the
peer had when the round began. -/
def Network.Served (T : Topology ι) (n : Network ι) (i : ι) (peers : List PyStr)
    (reports : List Report) (n' : Network ι) : Prop :=
  List.Forall₂ (fun peer report => report.reason = none → n.Delivered (T.server peer) i n')
    peers reports

theorem Network.Served.mono {m m' : Network ι} {peers : List PyStr} {reports : List Report}
    (h : n.Served T i peers reports n') (hm : m.Grows n) (hm' : n'.Grows m') :
    m.Served T i peers reports m' :=
  h.imp fun _ _ h hreason => (h hreason).mono hm hm'

theorem syncAllPeers_delivers (i : ι) (pageSize : ℤ) (maxPages : ℕ) (peers : List PyStr)
    (hn : n.Sound T) :
    (syncAllPeers i pageSize maxPages peers).Ensures (gossiping T) (Network.Rely T)
      (fun n n' => n.Rely T n' ∧ (n.Sound T → n'.Sound T))
      (thenOk (fun reports n' => n.Served T i peers reports n' ∧ n.Grows n') fun _ _ => True) n := by
  induction peers generalizing n with
  | nil => exact ⟨.nil, n.grows_refl⟩
  | cons peer peers ih =>
    simp only [syncAllPeers, bind_eq, ensures_bind, ensures_outcome]
    apply (syncPeer_delivers i peer pageSize maxPages hn).post
    rintro r n₁ ⟨hcycle, hgrows, hn₁⟩
    rw [thenOk_ok]
    simp only [ensures_bind]
    apply (ih hn₁).post
    rintro (e | reports) n₂ h
    · trivial
    obtain ⟨hserved, hgrows'⟩ := h
    refine ⟨.cons ?_ (hserved.mono hgrows (Network.grows_refl n₂)), hgrows.trans hgrows'⟩
    cases r with
    | ok result => exact fun _ => (hcycle ⟨result, rfl⟩).mono n.grows_refl hgrows'
    | error e => exact fun h => absurd h (Option.some_ne_none _)

theorem Gossip.Runs.guards {p : Gossip ι Unit} (hp : Gossip.Runs p) (hn : n.Sound T) :
    p.Guards (gossiping T) (Network.Rely T) (Network.Sound T) n := by
  cases hp with
  | node i peer p => exact node_guards i peer p hn
  | round i pageSize maxPages peers =>
    rw [bind_eq, Prog.Guards, ensures_bind]
    apply (syncAllPeers_delivers i pageSize maxPages peers hn).post
    rintro (e | reports) n' - <;> trivial

/-- The state of a network at a moment at which all programs keep to what they guarantee. -/
abbrev Network.Guarded (T : Topology ι) (m : List (Gossip ι Unit) × Network ι) : Prop :=
  Pool.Guarded (gossiping T) (Network.Rely T) (Network.Sound T) m

theorem Network.guarded_steps {m m' : List (Gossip ι Unit) × Network ι} (hops : ops ⊆ Gossip.programs)
    (hm : Network.Guarded T m) (h : Pool.Steps (gossiping T) ops m m') :
    Network.Guarded T m' ∧ m.2.Grows m'.2 := by
  obtain ⟨hg, hrely⟩ := h.guarded Network.rely_refl (fun _ _ _ => Network.Rely.trans)
    (fun p hp n hn => Gossip.Runs.guards (hops hp) hn) hm
  exact ⟨hg, hrely.1⟩

theorem Network.guarded_of_pool {m : List (Gossip ι Unit) × Network ι}
    (h₀ : ∀ i key, (n₀ i).saved key = none)
    (h : Pool (gossiping T) Gossip.programs n₀ m.1 m.2) : Network.Guarded T m := by
  have hsound : n₀.Sound T := by
    intro i key state hs
    rw [h₀ i key] at hs
    cases hs
  have hstart : Network.Guarded T ([], n₀) := ⟨hsound, fun _ h => absurd h List.not_mem_nil⟩
  exact (Network.guarded_steps (fun _ => id) hstart h).1

/-- A round that returns, beside all other programs of the network. -/
structure Network.Round (T : Topology ι) (ops : Set (Gossip ι Unit)) (i : ι) (peers : List PyStr)
    (reports : List Report) (m m' : List (Gossip ι Unit) × Network ι) : Prop where
  runs : ∃ pageSize maxPages, Relation.ReflTransGen (Beside (gossiping T) ops)
    (syncAllPeers i pageSize maxPages peers, m) (.ret reports, m')

theorem Network.Round.served {m m' : List (Gossip ι Unit) × Network ι} {peers : List PyStr}
    {reports : List Report} (hops : ops ⊆ Gossip.programs) (hm : Network.Guarded T m)
    (h : Network.Round T ops i peers reports m m') :
    Network.Guarded T m' ∧ m.2.Grows m'.2 ∧ m.2.Served T i peers reports m'.2 := by
  obtain ⟨pageSize, maxPages, hrun⟩ := h.runs
  obtain ⟨ps, n⟩ := m
  obtain ⟨ps', n'⟩ := m'
  have hround := syncAllPeers_delivers i pageSize maxPages peers hm.holds
  have hstable : ∀ (r : Py (List Report)) a b,
      thenOk (fun reports n' => n.Served T i peers reports n' ∧ n.Grows n') (fun _ _ => True) r a →
        Network.Rely T a b →
          thenOk (fun reports n' => n.Served T i peers reports n' ∧ n.Grows n') (fun _ _ => True) r b := by
    rintro (e | reports) a b ha hab
    · trivial
    · exact ⟨ha.1.mono n.grows_refl hab.1, ha.2.trans hab.1⟩
  obtain ⟨hg, hrely, hserved, -⟩ := Beside.ensures Network.rely_refl
    (fun _ _ _ => Network.Rely.trans) (fun p hp n hn => Gossip.Runs.guards (hops hp) hn) hstable hrun
    hm hround
  exact ⟨hg, hrely.1, hserved⟩

/-- In any run of the network in which the nodes begin without saved states, a round delivers from
every peer that it reports without a reason everything that the peer had when the round began,
whatever the other programs of all nodes do meanwhile. -/
theorem round_delivers {m m' : List (Gossip ι Unit) × Network ι} {peers : List PyStr}
    {reports : List Report} (h₀ : ∀ i key, (n₀ i).saved key = none)
    (h : Pool (gossiping T) Gossip.programs n₀ m.1 m.2)
    (hround : Network.Round T Gossip.programs i peers reports m m') :
    List.Forall₂ (fun peer report => report.reason = none →
      ∀ kind ≠ .anchors, ∀ v ∈ (m.2 (T.server peer)).node.store.bodies kind,
        (m'.2 i).node.store.Stored kind v) peers reports := by
  exact (hround.served (fun _ => id) (Network.guarded_of_pool h₀ h)).2.2

/-- A period in which every node finishes a round in which all its peers answer. The rounds may
overlap, and all other programs go on meanwhile. -/
def Network.Period (T : Topology ι) (ops : Set (Gossip ι Unit)) (peersOf : ι → List PyStr)
    (m m' : List (Gossip ι Unit) × Network ι) : Prop :=
  ∀ i, ∃ m₁ m₂ reports, Pool.Steps (gossiping T) ops m m₁ ∧
    Network.Round T ops i (peersOf i) reports m₁ m₂ ∧ (∀ r ∈ reports, r.reason = none) ∧
    Pool.Steps (gossiping T) ops m₂ m'

/-- The node is found from the other one through so many peers at most. -/
inductive Topology.Within (T : Topology ι) (peersOf : ι → List PyStr) (j : ι) : ℕ → ι → Prop
  | here (d : ℕ) : Within T peersOf j d j
  | hop {d : ℕ} {i : ι} {peer : PyStr} :
      peer ∈ peersOf i → Within T peersOf j d (T.server peer) → Within T peersOf j (d + 1) i

variable {peersOf : ι → List PyStr} {m m' : List (Gossip ι Unit) × Network ι}

theorem Network.Period.delivered (hops : ops ⊆ Gossip.programs) (hm : Network.Guarded T m)
    (h : Network.Period T ops peersOf m m') (i : ι) : Network.Guarded T m' ∧ m.2.Grows m'.2 ∧
      ∀ peer ∈ peersOf i, m.2.Delivered (T.server peer) i m'.2 := by
  obtain ⟨m₁, m₂, reports, hbefore, hround, hreasons, hafter⟩ := h i
  obtain ⟨hm₁, hgrows₁⟩ := Network.guarded_steps hops hm hbefore
  obtain ⟨hm₂, hgrows₂, hserved⟩ := hround.served hops hm₁
  obtain ⟨hm', hgrows'⟩ := Network.guarded_steps hops hm₂ hafter
  refine ⟨hm', (hgrows₁.trans hgrows₂).trans hgrows', fun peer hpeer => ?_⟩
  obtain ⟨k, hk, rfl⟩ := List.getElem_of_mem hpeer
  have hk' : k < reports.length := hserved.length_eq ▸ hk
  have hdelivered := hserved.get hk hk' (hreasons _ (List.getElem_mem hk'))
  exact Network.Delivered.mono hdelivered hgrows₁ hgrows'

theorem Network.periods_guarded {C : ℕ → List (Gossip ι Unit) × Network ι} {d : ℕ} (i : ι)
    (hops : ops ⊆ Gossip.programs) (hC : Network.Guarded T (C 0))
    (h : ∀ t < d, Network.Period T ops peersOf (C t) (C (t + 1))) :
    ∀ t ≤ d, Network.Guarded T (C t) ∧ (C 0).2.Grows (C t).2 := by
  intro t
  induction t with
  | zero => exact fun _ => ⟨hC, Network.grows_refl _⟩
  | succ t ih =>
    intro ht
    obtain ⟨hm, hgrows⟩ := ih (by omega)
    obtain ⟨hm', hgrows', -⟩ := (h t (by omega)).delivered hops hm i
    exact ⟨hm', hgrows.trans hgrows'⟩

theorem Network.periods_delivered {C : ℕ → List (Gossip ι Unit) × Network ι} {d : ℕ}
    (hops : ops ⊆ Gossip.programs) (hC : Network.Guarded T (C 0)) (hwithin : T.Within peersOf j d i)
    (h : ∀ t < d, Network.Period T ops peersOf (C t) (C (t + 1))) : (C 0).2.Delivered j i (C d).2 := by
  induction hwithin with
  | here d =>
    obtain ⟨-, hgrows⟩ := Network.periods_guarded j hops hC h d le_rfl
    exact fun kind hkind v hv => (hgrows j).1.stored hkind (Store.stored_of_mem hkind hv)
  | @hop d i peer hpeer _ ih =>
    have hbefore : ∀ t < d, Network.Period T ops peersOf (C t) (C (t + 1)) := fun t ht =>
      h t (by omega)
    obtain ⟨hm, -⟩ := Network.periods_guarded i hops hC hbefore d le_rfl
    obtain ⟨-, -, hlast⟩ := (h d (by omega)).delivered hops hm i
    exact fun kind hkind v hv => (hlast peer hpeer).stored hkind (ih hbefore kind hkind v hv)

/-- In any run of the network in which the nodes begin without saved states: whatever a node has
stored, every node that is so many hops away has stored after so many periods. -/
theorem gossip_spreads {C : ℕ → List (Gossip ι Unit) × Network ι} {d : ℕ}
    (h₀ : ∀ i key, (n₀ i).saved key = none)
    (hstart : Pool (gossiping T) Gossip.programs n₀ (C 0).1 (C 0).2)
    (h : ∀ t < d, Network.Period T Gossip.programs peersOf (C t) (C (t + 1)))
    (hwithin : T.Within peersOf j d i) :
    ∀ kind ≠ .anchors, ∀ v ∈ ((C 0).2 j).node.store.bodies kind,
      ((C d).2 i).node.store.Stored kind v :=
  Network.periods_delivered (fun _ => id) (Network.guarded_of_pool h₀ hstart) hwithin h

end Rounds

theorem Store.length_bodies_run {c : StorageCall β} (kind : SyncKind) :
    (s.bodies kind).length ≤ ((s.run c).2.bodies kind).length := by
  cases kind with
  | records => exact ((prefix_records_run c).map _).length_le
  | batches => exact ((prefix_batches_run c).map _).length_le
  | anchors =>
    simp only [bodies, List.length_map]
    cases c with
    | addAnchor a =>
      simp only [run]
      rcases addAnchor_cases s a with ⟨h, he⟩ | he
      · rw [he]
        simp only [upsertAnchor, Table.upsert]
        split_ifs
        · rw [List.length_map]
        · rw [List.length_append]
          exact Nat.le_add_right _ _
      · rw [he]
    | addBatch b =>
      simp only [run, addBatch]
      split_ifs <;> exact le_rfl
    | addScannedBlock row =>
      simp only [run, addScannedBlock]
      split_ifs <;> exact le_rfl
    | addCommitment c =>
      simp only [run, addCommitment]
      split_ifs <;> exact le_rfl
    | rewindBitcoinScan ancestor =>
      simp only [run, rewindBitcoinScan, Table.updateWhere, List.length_map, le_refl]
    | _ => exact le_rfl

omit [Ed25519] in
theorem exists_longer {l : List ℕ} (hl : (0 :: l).Pairwise (· < ·)) (k : ℕ) :
    ∃ l', l <+: l' ∧ l'.length = l.length + k ∧ (0 :: l').Pairwise (· < ·) := by
  induction k with
  | zero => exact ⟨l, List.prefix_rfl, rfl, hl⟩
  | succ k ih =>
    obtain ⟨l', hp, hlen, hsorted⟩ := ih
    refine ⟨l' ++ [l'.sum + 1], hp.trans (List.prefix_append _ _), ?_, ?_⟩
    · rw [List.length_append, hlen]
      rfl
    · rw [← List.cons_append, List.pairwise_append]
      refine ⟨hsorted, List.pairwise_singleton _ _, fun x hx y hy => ?_⟩
      obtain rfl := List.mem_singleton.mp hy
      rcases List.mem_cons.mp hx with rfl | hx
      · exact Nat.succ_pos _
      · exact Nat.lt_succ_of_le (List.le_sum_of_mem hx)

theorem Peer.exists_numbered (p : Peer) (hclosed : s.Closed)
    (hlen : ∀ kind, (p.store.bodies kind).length ≤ (s.bodies kind).length) :
    ∃ q : Peer, q.store = s ∧ ∀ kind, p.seqs kind <+: q.seqs kind := by
  have hseqs : ∀ kind, ∃ l', p.seqs kind <+: l' ∧ l'.length = (s.bodies kind).length ∧
      (0 :: l').Pairwise (· < ·) := by
    intro kind
    obtain ⟨l', hp, hl, hsorted⟩ := exists_longer (p.sorted kind)
      ((s.bodies kind).length - (p.store.bodies kind).length)
    refine ⟨l', hp, ?_, hsorted⟩
    rw [hl, p.length_seqs, Nat.add_sub_cancel' (hlen kind)]
  choose seqs hp hl hsorted using hseqs
  exact ⟨⟨s, seqs, hl, hsorted, hclosed⟩, rfl, hp⟩

section Lift

variable {T : Topology ι} {n : Network ι} {i : ι}

theorem atSite_exec {p : Syncing α} {r : Py α} (hi : T.server peer ≠ i)
    (hx : p.Exec (syncing (T.rpcAnswers i) (T.epoch (T.server peer))) (n.world T i peer) r w') :
    ∃ n', (atSite i peer p).Exec (gossiping T) n r n' ∧ n'.world T i peer = w' ∧
      ∀ j ≠ i, n' j = n j := by
  classical
  induction p generalizing n with
  | ret a =>
    obtain ⟨hr, rfl⟩ := hx
    exact ⟨n, ⟨hr, rfl⟩, rfl, fun _ _ => rfl⟩
  | raise e =>
    obtain ⟨hr, rfl⟩ := hx
    exact ⟨n, ⟨hr, rfl⟩, rfl, fun _ _ => rfl⟩
  | call c k ih =>
    obtain ⟨x, w₁, hc, hk⟩ := hx
    obtain ⟨hpeer, hclient⟩ := Network.syncing_cases hc
    have hnext : ∃ q : Peer, q.store = w₁.client ∧ ∀ kind, (n i).node.seqs kind <+: q.seqs kind := by
      rcases hclient with hsame | ⟨γ, c', hrun⟩
      · exact ⟨(n i).node, hsame.symm, fun _ => List.prefix_rfl⟩
      · rw [hrun]
        exact (n i).node.exists_numbered ((n i).node.closed.run c') Store.length_bodies_run
    obtain ⟨q, hq, hseqs⟩ := hnext
    set n₁ : Network ι := Function.update n i ⟨q, w₁.saved⟩ with hn₁
    have hself : n₁ i = ⟨q, w₁.saved⟩ := Function.update_self _ _ _
    have hother : ∀ j ≠ i, n₁ j = n j := fun j hj => Function.update_of_ne hj _ _
    have hworld : n₁.world T i peer = w₁ := by
      rw [Network.world, hself, hother _ hi, hq]
      exact congrArg (World.mk w₁.client w₁.saved) hpeer.symm
    obtain ⟨n', hx', hw', hothers⟩ := ih x (hworld.symm ▸ hk)
    refine ⟨n', ⟨x, n₁, ⟨hother, ?_, ?_⟩, hx'⟩, hw', fun j hj => (hothers j hj).trans (hother j hj)⟩
    · rw [hself]
      exact hseqs
    · have he : ({ n.world T i peer with client := (n₁ i).node.store, saved := (n₁ i).saved } : World)
          = w₁ := by
        rw [hself, hq]
        exact congrArg (World.mk w₁.client w₁.saved) hpeer.symm
      exact he ▸ hc

end Lift

end Network

section Witness

attribute [local instance] conformanceKeys

def emptyPeer : Peer where
  store := .empty
  seqs := fun _ => []
  length_seqs := by
    intro kind
    cases kind <;> rfl
  sorted := fun _ => List.pairwise_singleton _ _
  closed := fun _ hb => absurd hb Table.not_mem_empty

def sampleTopology : Topology Bool where
  host url := url = normalized sampleUrl
  epoch := fun _ => "epoch"
  rpcAnswers := fun _ => sampleOld.truthful

def sampleNetwork (i : Bool) : Site := ⟨if i then batchPeer else emptyPeer, fun _ => none⟩

def samplePeers (i : Bool) : List PyStr := if i then [] else [sampleUrl]

theorem sampleTopology_server : sampleTopology.server sampleUrl = true :=
  decide_eq_true (p := normalized sampleUrl = normalized sampleUrl) rfl

theorem exec_sampleRound : ∃ result n',
    (syncAllPeers false 100 10 [sampleUrl]).Exec (gossiping sampleTopology) sampleNetwork
      (.ok [⟨result, none⟩]) n' := by
  have hworld : Network.world sampleTopology sampleNetwork false sampleUrl =
      ⟨.empty, fun _ => none, batchPeer⟩ := by
    rw [Network.world, sampleTopology_server]
    rfl
  have hok : ((syncPeer sampleUrl 100 10).eval (syncOracle sampleOld "epoch")
      ⟨.empty, fun _ => none, batchPeer⟩).1.toOption.isSome = true := by
    decide +kernel
  obtain ⟨result, hx⟩ := exec_eval_ok (@obeys_syncOracle _ sampleOld "epoch") hok
  rw [← hworld] at hx
  have hne : sampleTopology.server sampleUrl ≠ false := by
    rw [sampleTopology_server]
    decide
  obtain ⟨n', hx', -, -⟩ := atSite_exec hne hx
  refine ⟨result, n', exec_bind.mpr (Or.inl ⟨_, n', exec_outcome.mpr ⟨_, rfl, hx'⟩, ?_⟩)⟩
  exact exec_bind.mpr (Or.inl ⟨[], n', ⟨rfl, rfl⟩, rfl, rfl⟩)

theorem exists_sampleRound {ops : Set (Gossip Bool Unit)} (hops : Gossip.rounds ⊆ ops) :
    ∃ result n', Network.Round sampleTopology ops false [sampleUrl] [⟨result, none⟩]
        ([], sampleNetwork) ([], n') ∧
      Pool.Steps (gossiping sampleTopology) ops ([], sampleNetwork) ([], n') := by
  obtain ⟨result, n', hx⟩ := exec_sampleRound
  refine ⟨result, n', ⟨100, 10, Beside.of_exec hx⟩, ?_⟩
  have hround : (syncAllPeers false 100 10 [sampleUrl] >>= fun _ => Prog.ret () : Gossip Bool Unit).Exec
      (gossiping sampleTopology) sampleNetwork (.ok ()) n' :=
    exec_bind.mpr (Or.inl ⟨_, n', hx, rfl, rfl⟩)
  have hstart : Pool (gossiping sampleTopology) ops sampleNetwork
      [syncAllPeers false 100 10 [sampleUrl] >>= fun _ => Prog.ret ()] sampleNetwork :=
    .single (.start (hops ⟨false, 100, 10, [sampleUrl], rfl⟩))
  obtain ⟨q, hq⟩ := hstart.exec hround
  have hstop : Pool.Step (gossiping sampleTopology) ops ([] ++ q :: [], n') ([] ++ [], n') := .stop
  exact hq.tail hstop

theorem exists_samplePeriod {ops : Set (Gossip Bool Unit)} (hops : Gossip.rounds ⊆ ops) :
    ∃ n', Network.Period sampleTopology ops samplePeers ([], sampleNetwork) ([], n') := by
  obtain ⟨result, n', hround, hsteps⟩ := exists_sampleRound hops
  refine ⟨n', fun i => ?_⟩
  cases i with
  | true => exact ⟨_, _, [], .refl, ⟨100, 10, .refl⟩, fun _ h => absurd h List.not_mem_nil, hsteps⟩
  | false =>
    refine ⟨_, _, _, .refl, hround, fun r hr => ?_, .refl⟩
    rw [List.mem_singleton.mp hr]

theorem sampleTopology_within : sampleTopology.Within samplePeers true 1 false := by
  have hpeer : sampleUrl ∈ samplePeers false := List.mem_cons_self
  refine .hop hpeer ?_
  rw [sampleTopology_server]
  exact .here 0

theorem round_delivers_sample : ∃ reports m', Network.Round sampleTopology Gossip.programs false
      [sampleUrl] reports ([], sampleNetwork) m' ∧
    List.Forall₂ (fun peer report => report.reason = none → ∀ kind ≠ .anchors,
      ∀ v ∈ (sampleNetwork (sampleTopology.server peer)).node.store.bodies kind,
        (m'.2 false).node.store.Stored kind v) [sampleUrl] reports := by
  obtain ⟨result, n', hround, -⟩ := exists_sampleRound Gossip.rounds_subset
  exact ⟨_, _, hround, round_delivers (fun _ _ => rfl) .refl hround⟩

theorem gossip_spreads_sample : ∃ n', Network.Period sampleTopology Gossip.programs samplePeers
      ([], sampleNetwork) ([], n') ∧
    ∀ kind ≠ .anchors, ∀ v ∈ (sampleNetwork true).node.store.bodies kind,
      (n' false).node.store.Stored kind v := by
  obtain ⟨n', hperiod⟩ := exists_samplePeriod Gossip.rounds_subset
  refine ⟨n', hperiod, ?_⟩
  have hspread := gossip_spreads (C := fun t => if t = 0 then ([], sampleNetwork) else ([], n'))
    (fun _ _ => rfl) .refl (fun t ht => ?_) sampleTopology_within
  · exact hspread
  · obtain rfl : t = 0 := by omega
    exact hperiod

end Witness

end HistoryAnchor

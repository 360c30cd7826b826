import HistoryAnchor.Sync.Peers

/-! # Sync cycles

A cycle asks a peer for records, then for batches, then for anchors, from where the
last cycle has stopped. A number is saved only once everything up to it is stored,
and a batch that lacks records stops the pass before its number is saved.
-/

namespace HistoryAnchor

open Python Effects Prog Tables

structure SyncState where
  peer : PyStr
  syncEpoch : PyStr
  seqs : SyncKind → ℤ

/-- `state[f"{kind}_seq"] = seq`. -/
def SyncState.advance (state : SyncState) (kind : SyncKind) (seq : ℤ) : SyncState :=
  { state with seqs := Function.update state.seqs kind seq }

structure SyncResult where
  peer : PyStr
  counts : SyncKind → ℕ
  errors : ℕ
  reset : Bool

namespace SyncResult

def count (result : SyncResult) (kind : SyncKind) : SyncResult :=
  { result with counts := Function.update result.counts kind (result.counts kind + 1) }

def fail (result : SyncResult) : SyncResult := { result with errors := result.errors + 1 }

end SyncResult

structure Page where
  items : List Json
  seq : ℤ
  hasMore : Bool

/-- The checks of `_get_page`. -/
def readPage (kind : SyncKind) (value : Json) : Py Page :=
  match value.get "items" with
  | some (.arr items) =>
    match ((value.getD "cursor" .null).get "seq").bind Json.asInt with
    | some seq =>
      match value.get "has_more" with
      | some (.bool hasMore) => .ok ⟨items, seq, hasMore⟩
      | _ => raise .valueError ("peer returned an invalid has_more flag for " ++ kind.path)
    | none => raise .valueError ("peer returned an invalid cursor for " ++ kind.path)
  | _ => raise .valueError ("peer returned an invalid sync response for " ++ kind.path)

/-- `peer.rstrip("/")`. -/
def normalized (peer : PyStr) : PyStr := (peer.reverse.dropWhile (· = 0x2F)).reverse

def peerKey (peer : PyStr) : Py PyStr :=
  match utf8 (normalized peer) with
  | some b => .ok ((Codec.sha256Hex b).take 32)
  | none => raise .unicodeEncodeError "surrogates not allowed"

/-- What a cycle asks of the peer, and of the metadata of its own node. -/
inductive PeerCall : Type → Type
  | info : PeerCall Json
  | page (kind : SyncKind) (afterSeq limit : ℤ) : PeerCall Json
  | peerSyncState (key : PyStr) : PeerCall (Option SyncState)
  | setPeerSyncState (key : PyStr) (state : SyncState) : PeerCall Unit

section Program

variable [Ed25519]

inductive SyncCall (β : Type) : Type
  | node (c : NodeCall β)
  | peer (c : PeerCall β)

abbrev Syncing := Prog SyncCall Exc

variable {β : Type}

def peerCall (c : PeerCall β) : Syncing β := .perform (.peer c)

def atNode (p : Node β) : Syncing β := p.embed fun _ c => .node c

def getPage (kind : SyncKind) (afterSeq limit : ℤ) : Syncing Page := do
  let value ← peerCall (.page kind afterSeq limit)
  .ofExcept (readPage kind value)

def importItem : SyncKind → Json → Node Service.Status
  | .records, item => Service.submitRecord item false Service.noPolicy
  | .batches, item => Service.importBatch item
  | .anchors, item => Service.importAnchorReference item

/-- Import items one after another up to the first that lacks a dependency; refused items are
counted. -/
def importItems (kind : SyncKind) : List Json → SyncResult → Syncing (SyncResult × Bool)
  | [], result => return (result, false)
  | item :: items, result => do
    match ← (atNode (importItem kind item)).outcome with
    | .ok status =>
      importItems kind items (if status = .accepted then result.count kind else result)
    | .error e =>
      if e.type = .missingDependencyError then return (result, true)
      else if e.type.isServiceError then importItems kind items result.fail
      else .raise e

/-- `for _ in range(max_pages)` with what is left of the range. -/
def syncPages (key : PyStr) (kind : SyncKind) (pageSize : ℤ) (maxPages : ℕ) :
    ℕ → SyncState → SyncResult → Syncing (SyncState × SyncResult)
  | 0, _, _ => .raise ⟨.valueError,
      "peer exceeded the " ++ decimal maxPages ++ "-page sync ceiling for " ++ kind.path⟩
  | pages + 1, state, result => do
    let current := state.seqs kind
    let page ← getPage kind current pageSize
    .ofExcept (require (page.items = [] ∨ current < page.seq) .valueError
      ("peer cursor failed to advance for " ++ kind.path))
    let (result, dependencyMissing) ← importItems kind page.items result
    if dependencyMissing then return (state, result)
    let state := state.advance kind page.seq
    peerCall (.setPeerSyncState key state)
    if page.hasMore then syncPages key kind pageSize maxPages pages state result
    else return (state, result)

def syncEpoch (info : Json) : Py PyStr :=
  match info with
  | .obj _ =>
    match info.get "sync_epoch" with
    | some (.str (c :: cs)) => .ok (c :: cs)
    | _ => raise .valueError "peer does not expose a sync epoch"
  | _ => raise .valueError "peer returned invalid node information"

/-- The state from which the cycle goes on; that of another epoch is replaced. -/
def startState (key peer epoch : PyStr) : Syncing (SyncState × Bool) := do
  let fresh : SyncState := ⟨normalized peer, epoch, fun _ => 0⟩
  let saved ← peerCall (.peerSyncState key)
  let state := saved.getD fresh
  if state.syncEpoch ≠ epoch ∨ state.peer ≠ normalized peer then
    peerCall (.setPeerSyncState key fresh)
    return (fresh, true)
  else return (state, false)

def syncPeer (peer : PyStr) (pageSize : ℤ) (maxPages : ℕ) : Syncing SyncResult := do
  let key ← .ofExcept (peerKey peer)
  let info ← peerCall .info
  let epoch ← .ofExcept (syncEpoch info)
  let (state, reset) ← startState key peer epoch
  let result : SyncResult := ⟨peer, fun _ => 0, 0, reset⟩
  let (state, result) ← syncPages key .records (min pageSize 25) maxPages maxPages state result
  let (state, result) ← syncPages key .batches 1 maxPages maxPages state result
  let (_, result) ← syncPages key .anchors (min pageSize 200) maxPages maxPages state result
  return result

/-- The node, what it has saved about its peers, and the peer. -/
structure World where
  client : Store
  saved : PyStr → Option SyncState
  peer : Peer

/-- The metadata answers its calls; the peer answers from its tables, in one epoch, or does not
answer. -/
def PeerCall.Answered (epoch : PyStr) (w : World) : {β : Type} → PeerCall β → Py β → World → Prop
  | _, info, x, w' => w' = w ∧
      ((∃ e, x = .error e) ∨ ∃ v, x = .ok v ∧ v.get "sync_epoch" = some (.str epoch))
  | _, page kind afterSeq limit, x, w' => w' = w ∧
      ((∃ e, x = .error e) ∨ x = w.peer.answer kind afterSeq limit)
  | _, peerSyncState key, x, w' => w' = w ∧ x = .ok (w.saved key)
  | _, setPeerSyncState key state, x, w' => x = .ok () ∧
      w' = { w with saved := Function.update w.saved key (some state) }

def syncing (rpcAnswers : Answers) (epoch : PyStr) : Handler SyncCall Exc World :=
  fun _ call w x w' =>
    match call with
    | .node c => environment rpcAnswers c w.client x w'.client ∧ w'.saved = w.saved ∧
        w'.peer = w.peer
    | .peer c => c.Answered epoch w x w'

end Program

section Growth

variable [Ed25519] {rpcAnswers : Answers} {epoch peer key : PyStr}
variable {α : Type} {s t : Store} {w w' : World} {kind : SyncKind}

namespace Store

def Grows (s t : Store) : Prop :=
  (∀ row ∈ s.records, row ∈ t.records) ∧ ∀ b ∈ s.batches, b ∈ t.batches

theorem grows_refl (s : Store) : s.Grows s := ⟨fun _ h => h, fun _ h => h⟩

theorem Grows.trans {u : Store} (h : s.Grows t) (h' : t.Grows u) : s.Grows u :=
  ⟨fun row hrow => h'.1 row (h.1 row hrow), fun b hb => h'.2 b (h.2 b hb)⟩

theorem Grows.has {i : PyStr} (h : s.Grows t) (hi : s.Has i) : t.Has i := by
  obtain ⟨row, hrow, hid⟩ := hi
  exact ⟨row, h.1 row hrow, hid⟩

theorem grows_run {β : Type} (c : StorageCall β) : s.Grows (s.run c).2 :=
  ⟨fun _ h => (prefix_records_run c).subset h, fun _ h => (prefix_batches_run c).subset h⟩

def Stored (s : Store) : SyncKind → Json → Prop
  | .records, v => s.Has (v.text "record_id")
  | .batches, v => ∃ b ∈ s.batches, b.batchId = v.text "batch_id"
  | .anchors, v => ∃ a ∈ s.anchors, a.point = (v.text "txid", v.nat "vout")

theorem Grows.stored {v : Json} (h : s.Grows t) (hkind : kind ≠ .anchors)
    (hv : s.Stored kind v) : t.Stored kind v := by
  cases kind with
  | records => exact h.has hv
  | batches =>
    obtain ⟨b, hb, hid⟩ := hv
    exact ⟨b, h.2 b hb, hid⟩
  | anchors => exact absurd rfl hkind

end Store

theorem grows_environment {β : Type} {c : NodeCall β} {x : Py β}
    (h : environment rpcAnswers c s x t) : s.Grows t := by
  cases c with
  | storage c =>
    have he : t = (s.run c).2 := congrArg Prod.snd h
    rw [he]
    exact Store.grows_run c
  | rpc c => exact h.2 ▸ s.grows_refl
  | outside c => exact h.2 ▸ s.grows_refl

namespace World

structure Since (w w' : World) : Prop where
  client : w.client.Grows w'.client
  peer : w.peer.Follows w'.peer

theorem since_refl (w : World) : w.Since w := ⟨w.client.grows_refl, w.peer.follows_refl⟩

theorem Since.trans {w'' : World} (h : w.Since w') (h' : w'.Since w'') : w.Since w'' :=
  ⟨h.client.trans h'.client, h.peer.trans h'.peer⟩

end World

/-- Everything of the peer up to the numbers of the state is stored. -/
def SyncState.Holds (state : SyncState) (w : World) : Prop :=
  ∀ kind ≠ .anchors, Synced (w.peer.served kind) (w.client.Stored kind) (state.seqs kind)

theorem SyncState.Holds.since {state : SyncState} (h : state.Holds w)
    (hw : w.Since w') : state.Holds w' := fun kind hkind =>
  (h kind hkind).mono Peer.numbered_served (hw.peer kind hkind)
    fun _ hv => hw.client.stored hkind hv

def World.Covered (peer epoch key : PyStr) (w : World) : Prop :=
  ∀ state, w.saved key = some state → state.peer = normalized peer → state.syncEpoch = epoch →
    state.Holds w

abbrev KeepsCovered (peer epoch key : PyStr) (w w' : World) : Prop :=
  w.Covered peer epoch key → w'.Covered peer epoch key

def Peer.Lacking (p : Peer) (kind : SyncKind) (s : Store) : Prop :=
  kind = .batches ∧ ∃ b ∈ p.store.batches, ∃ i ∈ b.recordIds, ¬ s.Has i

theorem Peer.Lacking.anti {p : Peer} (h : s.Grows t) (hl : p.Lacking kind t) :
    p.Lacking kind s := by
  obtain ⟨hkind, b, hb, i, hi, hnot⟩ := hl
  exact ⟨hkind, b, hb, i, hi, fun hs => hnot (h.has hs)⟩

theorem readPage_rows {p : Peer} {afterSeq limit : ℤ} {v : Json} {page : Page}
    (hv : p.answer kind afterSeq limit = .ok v) (hpage : readPage kind v = .ok page) :
    1 ≤ limit ∧ page.items = (pageRows (p.served kind) afterSeq limit).map Prod.snd ∧
      page.seq = pageCursor (pageRows (p.served kind) afterSeq limit) afterSeq ∧
      page.hasMore = (((pageRows (p.served kind) afterSeq limit).length : ℤ) = limit) := by
  simp only [Peer.answer, syncPage, bind_ok, require_ok, exists_unit] at hv
  obtain ⟨⟨-, hlimit, -⟩, hv⟩ := hv
  obtain rfl := Except.ok.inj hv
  obtain rfl := Except.ok.inj hpage
  exact ⟨hlimit, rfl, rfl, decide_eq_true_eq⟩

theorem SyncState.Holds.advance {state : SyncState} {seq : ℤ} (h : state.Holds w)
    (hseq : kind ≠ .anchors → Synced (w.peer.served kind) (w.client.Stored kind) seq) :
    (state.advance kind seq).Holds w := by
  intro kind' hkind
  by_cases he : kind' = kind
  · subst he
    have hself : (state.advance kind' seq).seqs kind' = seq := Function.update_self _ _ _
    rw [hself]
    exact hseq hkind
  · have hother : (state.advance kind seq).seqs kind' = state.seqs kind' :=
      Function.update_of_ne he _ _
    rw [hother]
    exact h kind' hkind

end Growth

section Oracle

variable [Ed25519]

def PeerCall.reply (epoch : PyStr) (w : World) : {β : Type} → PeerCall β → Py β × World
  | _, info => (.ok (.obj [("sync_epoch", .str epoch)]), w)
  | _, page kind afterSeq limit => (w.peer.answer kind afterSeq limit, w)
  | _, peerSyncState key => (.ok (w.saved key), w)
  | _, setPeerSyncState key state =>
    (.ok (), { w with saved := Function.update w.saved key (some state) })

def syncOracle (c : Chain) (epoch : PyStr) : Oracle SyncCall Exc World := fun _ call w =>
  match call with
  | .node call => ((c.oracle call w.client).1, { w with client := (c.oracle call w.client).2 })
  | .peer call => call.reply epoch w

theorem obeys_syncOracle {c : Chain} {epoch : PyStr} :
    Obeys (syncOracle c epoch) (syncing c.truthful epoch) := by
  intro β call w
  cases call with
  | node call =>
    have h : Obeys c.oracle (environment c.truthful) := c.obeys_oracle fun _ _ _ => rfl
    exact ⟨h call w.client, rfl, rfl⟩
  | peer call =>
    cases call with
    | info => exact ⟨rfl, Or.inr ⟨_, rfl, rfl⟩⟩
    | page kind afterSeq limit => exact ⟨rfl, Or.inr rfl⟩
    | peerSyncState key => exact ⟨rfl, rfl⟩
    | setPeerSyncState key state => exact ⟨rfl, rfl⟩

end Oracle

end HistoryAnchor

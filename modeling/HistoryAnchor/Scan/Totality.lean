import HistoryAnchor.Node.Reached
import HistoryAnchor.Scan.Exactness

/-! # When a scan comes to its end

On one chain, with a clock that fits, the only call of a scan that can fail is the
registration of a commitment to a local batch: its query returns the ten thousand
oldest rows of the batch. What it sees of the rows is their keys, and these are
followed through the outputs of the scanned blocks.
-/

namespace HistoryAnchor

open Python Effects Prog Discovery Tables

/-- The point of a row and the batch it commits to. -/
abbrev RowKey := Point × PyStr

def Commitment.key (c : Commitment) : RowKey := (c.point, c.batchId)

def Output.key (o : Output) : RowKey := (o.point, o.payload.manifestHash)

/-- The key of a row that is stored, in the place of an older row at its point. -/
def upsertKey (keys : List RowKey) (k : RowKey) : List RowKey :=
  if k.1 ∈ keys.map Prod.fst then keys.map fun k' => if k'.1 = k.1 then k else k'
  else keys ++ [k]

def storeKeys (keys : List RowKey) (outs : List Output) : List RowKey :=
  outs.foldl (fun keys o => upsertKey keys o.key) keys

def Early (keys : List RowKey) (k : RowKey) : Prop :=
  k ∈ (keys.filter fun k' => k'.2 = k.2).take 10000

instance (keys : List RowKey) (k : RowKey) : Decidable (Early keys k) :=
  inferInstanceAs (Decidable (_ ∈ _))

/-- Every output with a local payload is among the first ten thousand of its batch when it has been
stored. -/
def Roomy (here : PyStr → PyStr → Prop) : List RowKey → List Output → Prop
  | _, [] => True
  | keys, o :: outs =>
    (here o.payload.manifestHash o.payloadHex → Early (upsertKey keys o.key) o.key) ∧
      Roomy here (upsertKey keys o.key) outs

theorem storeKeys_append (keys : List RowKey) (outs outs' : List Output) :
    storeKeys keys (outs ++ outs') = storeKeys (storeKeys keys outs) outs' :=
  List.foldl_append

theorem roomy_append {here : PyStr → PyStr → Prop} {keys : List RowKey} {outs outs' : List Output} :
    Roomy here keys (outs ++ outs') ↔
      Roomy here keys outs ∧ Roomy here (storeKeys keys outs) outs' := by
  induction outs generalizing keys with
  | nil => exact (iff_of_eq (true_and _)).symm
  | cons o outs ih => rw [List.cons_append, Roomy, ih, Roomy, and_assoc]; rfl

/-- The accepted outputs of the blocks at the heights, in order. -/
def Chain.outputs (c : Chain) (hs : List ℤ) : List Output :=
  hs.flatMap fun h => ((c.at? h).map fun x => x.2.accepted).getD []

section Clock

variable [Ed25519]

def NodeCall.Timely : {β : Type} → NodeCall β → Py β → Prop
  | _, .outside .time, x => ∃ t, x = .ok t ∧ sqliteInt t
  | _, _, _ => True

def Chain.timely (c : Chain) : Handler NodeCall Exc Store := fun _ call s x s' =>
  environment c.truthful call s x s' ∧ call.Timely x

variable {c : Chain} {s : Store} {β : Type}

theorem storage_timely {call : StorageCall β} {Q : Py β → Store → Prop} :
    (storage call).Alone c.timely (fun _ => True) Q s ↔ Q (s.run call).1 (s.run call).2 := by
  simp only [storage, ensures_perform, forall_eq', true_and]
  constructor
  · intro h
    exact h _ _ ⟨rfl, trivial⟩
  · rintro h x s' ⟨hx, -⟩
    rw [show x = _ from congrArg Prod.fst hx, show s' = _ from congrArg Prod.snd hx]
    exact h

theorem rpc_timely {call : RpcCall β} {Q : Py β → Store → Prop} :
    (rpc call).Alone c.timely (fun _ => True) Q s ↔ Q (c.answer call) s := by
  simp only [rpc, ensures_perform, forall_eq', true_and]
  constructor
  · intro h
    exact h _ _ ⟨⟨rfl, rfl⟩, trivial⟩
  · rintro h _ _ ⟨⟨rfl, rfl⟩, -⟩
    exact h

theorem now_timely {Q : Py ℤ → Store → Prop} :
    now.Alone c.timely (fun _ => True) Q s ↔ ∀ t, sqliteInt t → Q (.ok t) s := by
  simp only [now, ensures_perform, forall_eq', true_and]
  constructor
  · intro h t ht
    exact h _ _ ⟨⟨⟨t, rfl⟩, rfl⟩, t, rfl, ht⟩
  · rintro h _ _ ⟨⟨-, rfl⟩, t, rfl, ht⟩
    exact h t ht

end Clock

namespace Store

variable [Ed25519] {s : Store}

def keys (s : Store) : List RowKey := s.commitments.rows.map Commitment.key

theorem keys_upsertCommitment (c : Commitment) (h : c.Fits) :
    (s.upsertCommitment c h).keys = upsertKey s.keys c.key := by
  have hmem : c.key.1 ∈ s.keys.map Prod.fst ↔ ∃ r ∈ s.commitments.rows, r.point = c.point := by
    rw [keys, List.map_map, List.mem_map]
    rfl
  unfold upsertKey upsertCommitment Table.upsert
  by_cases hex : ∃ r ∈ s.commitments.rows, r.point = c.point
  · rw [if_pos (hmem.mpr hex)]
    simp only [keys, dif_pos hex, List.map_map]
    apply List.map_congr_left
    intro r _
    by_cases hr : r.point = c.point
    · simp only [Function.comp_apply, if_pos hr]
      exact (if_pos hr).symm
    · simp only [Function.comp_apply, if_neg hr]
      exact (if_neg hr).symm
  · rw [if_neg (mt hmem.mp hex)]
    simp only [keys, dif_neg hex, List.map_append, List.map_cons, List.map_nil]

theorem keys_register (c : Commitment) : (s.register c).keys = s.keys := by
  have hconfirm : (s.confirm c).commitments = s.commitments := by
    unfold confirm
    split_ifs <;> rfl
  simp only [keys, register, markCommitmentResolved, Table.updateWhere, hconfirm, List.map_map]
  apply List.map_congr_left
  intro r _
  simp only [Function.comp_apply]
  split_ifs <;> rfl

theorem batches_register (c : Commitment) : (s.register c).batches = s.batches := by
  unfold register confirm
  split_ifs <;> rfl

theorem blocks_register (c : Commitment) : (s.register c).bitcoinBlocks = s.bitcoinBlocks := by
  unfold register confirm
  split_ifs <;> rfl

theorem listed_iff_early {c : Commitment} (hc : c ∈ s.commitments) :
    s.Listed c ↔ Early s.keys c.key := by
  have hkeys : (s.keys.filter fun k => k.2 = c.key.2).take 10000 =
      (s.selectCommitments false (some c.batchId) 10000).map Commitment.key := by
    rw [selectCommitments_batch, List.map_take, keys, List.filter_map]
    rfl
  rw [Listed, Early, hkeys]
  constructor
  · exact fun h => List.mem_map_of_mem h
  · intro h
    obtain ⟨r, hr, he⟩ := List.mem_map.mp h
    have hrc : r = c := Table.eq_of_key (mem_of_selectCommitments hr) hc (Prod.mk.inj he).1
    exact hrc ▸ hr

end Store

section Outputs

variable [Ed25519] {c : Chain} {s : Store} {ctx : BlockContext}

/-- What is left to show of a run of outputs: where it comes to its end, and that it fails
otherwise. -/
theorem recordCommitment_timely {o : Output} {Q : Py Unit → Store → Prop}
    (hfits : ∀ t, sqliteInt t → (o.row ctx t).Fits)
    (done : (s.Local o.payload.manifestHash o.payloadHex → Early (upsertKey s.keys o.key) o.key) →
      ∀ s', s'.keys = upsertKey s.keys o.key → s'.batches = s.batches →
        s'.bitcoinBlocks = s.bitcoinBlocks → Q (.ok ()) s')
    (stuck : s.Local o.payload.manifestHash o.payloadHex → ¬ Early (upsertKey s.keys o.key) o.key →
      ∀ e s', Q (.error e) s') :
    (recordCommitment ctx o.point o.payloadHex o.payload).Alone c.timely (fun _ => True) Q s := by
  simp only [recordCommitment, bind_eq, ensures_bind]
  apply now_timely.mpr
  intro t ht
  have hadd : s.addCommitment (o.row ctx t) = (.ok (s.commitments.find?
      (o.row ctx t).point).isNone, s.upsertCommitment (o.row ctx t) (hfits t ht)) :=
    dif_pos (hfits t ht)
  have hkeys := s.keys_upsertCommitment (o.row ctx t) (hfits t ht)
  simp only [thenOk_ok, ensures_bind]
  apply storage_timely.mpr
  simp only [Store.run, hadd, thenOk_ok, ensures_bind]
  apply storage_timely.mpr
  simp only [Store.run, thenOk_ok]
  have hbatches : (s.upsertCommitment (o.row ctx t) (hfits t ht)).batches = s.batches := rfl
  rw [hbatches]
  split_ifs with hlocal
  · have hl : s.Local o.payload.manifestHash o.payloadHex := Store.find?_batch_any.mp hlocal
    simp only [ensures_bind]
    apply Ensures.restrict fun _ _ _ _ _ h => h.1
    obtain ⟨r, hr, hp⟩ := Store.exists_mem_upsertCommitment (s := s) (o.row ctx t) (hfits t ht)
    have hcore := Store.core_of_mem_upsertCommitment hr hp
    have hkey : r.key = o.key :=
      Prod.ext hp (congrArg Core.batchId hcore)
    have hearly : (s.upsertCommitment (o.row ctx t) (hfits t ht)).Listed r ↔ Early (upsertKey s.keys o.key) o.key := by
      rw [Store.listed_iff_early hr, hkeys, hkey]
      rfl
    apply registerScannedAnchor_exact trivial
    · intro r' hr' hp' hi' _ hlisted
      have hrr : r' = r := Table.eq_of_key hr' hr (hp'.trans hp.symm)
      subst hrr
      refine ⟨trivial, trivial, done (fun _ => hearly.mp hlisted) _ ?_ ?_ ?_⟩
      · rw [Store.keys_register, hkeys]
        rfl
      · rw [Store.batches_register, hbatches]
      · rw [Store.blocks_register]
        rfl
    · intro hnone e
      apply stuck hl
      intro he
      refine hnone ⟨r, hr, hp, congrArg Core.batchId hcore, ?_, hearly.mpr he⟩
      rw [show r.batchId = _ from congrArg Core.batchId hcore,
        show r.payloadHex = _ from congrArg Core.payloadHex hcore]
      exact hl
  · apply done _ _ hkeys hbatches rfl
    exact fun hl => absurd (Store.find?_batch_any.mpr hl) hlocal

/-- The outputs of a block are stored to their end exactly if there is room for them. -/
theorem recordOutputs_timely {outs : List Output} {found : ℕ} {Q : Py ℕ → Store → Prop}
    (hfits : ∀ o ∈ outs, ∀ t, sqliteInt t → (o.row ctx t).Fits)
    (done : Roomy s.Local s.keys outs → ∀ n s', s'.keys = storeKeys s.keys outs →
      s'.batches = s.batches → s'.bitcoinBlocks = s.bitcoinBlocks → Q (.ok n) s')
    (stuck : ¬ Roomy s.Local s.keys outs → ∀ e s', Q (.error e) s') :
    (outs.foldlM (recordOutput ctx) found).Alone c.timely (fun _ => True) Q s := by
  induction outs generalizing s found with
  | nil => exact done trivial found s rfl rfl rfl
  | cons o outs ih =>
    simp only [List.foldlM_cons, recordOutput, bind_eq, ensures_bind]
    apply recordCommitment_timely (hfits o List.mem_cons_self)
    · intro hroom s₁ hkeys hbatches hblocks
      have hlocal : s₁.Local = s.Local := by
        unfold Store.Local
        rw [hbatches]
      apply ih fun o' ho' => hfits o' (List.mem_cons_of_mem o ho')
      · intro hrest n s' hk hb hbl
        rw [hlocal, hkeys] at hrest
        refine done ⟨hroom, hrest⟩ n s' ?_ (hb.trans hbatches) (hbl.trans hblocks)
        rw [hk, hkeys]
        rfl
      · intro hrest e s'
        rw [hlocal, hkeys] at hrest
        exact stuck (fun h => hrest h.2) e s'
    · intro hl hearly e s'
      exact stuck (fun h => hearly (h.1 hl)) e s'

end Outputs

/-- Heights fit, and every output has its number, as Bitcoin Core returns them. -/
structure Chain.Decoded (c : Chain) : Prop where
  tip : c.tip < 2 ^ 63
  numbered : ∀ b ∈ c.blocks, ∀ t ∈ b.2.tx, ∀ o ∈ t.vout, o.n ≠ none

theorem Chain.Decoded.vout {c : Chain} (hc : c.Decoded) {x : PyStr × Block} (hx : x ∈ c.blocks)
    {o : Output} (ho : o ∈ x.2.accepted) : sqliteInt o.point.2 := by
  obtain ⟨t, ht, ho⟩ := Block.mem_accepted.mp ho
  obtain ⟨txid, out, i, -, hm, -, hp⟩ := Tx.mem_accepted ho
  obtain ⟨n, hn⟩ := Option.ne_none_iff_exists'.mp
    (hc.numbered x hx t ht out (List.fst_mem_of_mem_zipIdx hm))
  have hlt := n.toNat_lt
  simp only [hp, TxOut.number, hn, Option.map_some, Option.getD_some, sqliteInt]
  omega

theorem Block.blockTime_fits (b : Block) : sqliteInt b.blockTime := by
  cases ht : b.time with
  | none => simp [Block.blockTime, ht, sqliteInt]
  | some n =>
    have hlt := n.toNat_lt
    simp only [Block.blockTime, ht, Option.map_some, Option.getD_some, sqliteInt]
    omega

theorem heights_of_lt {first last : ℤ} (h : last < first) : heights first last = [] := by
  simp [heights, show (last + 1 - first).toNat = 0 by omega]

theorem heights_of_le {first last : ℤ} (h : first ≤ last) :
    heights first last = first :: heights (first + 1) last := by
  have hlen : (last + 1 - first).toNat = (last + 1 - (first + 1)).toNat + 1 := by omega
  simp only [heights, hlen, List.range_succ_eq_map, List.map_cons, List.map_map, Nat.cast_zero,
    add_zero, List.cons.injEq, true_and]
  apply List.map_congr_left
  intro i _
  simp only [Function.comp_apply, Nat.cast_succ]
  omega

section Scan

variable [Ed25519] {c : Chain} {s : Store}

/-- The stored blocks are below a height, and the last one is right below it if a scan has come
there from another height. -/
structure Store.ScannedTo (s : Store) (first next : ℤ) : Prop where
  below : ∀ row ∈ s.bitcoinBlocks, row.height < next
  last : first < next → ∃ row ∈ s.bitcoinBlocks, row.height = next - 1

theorem Store.ScannedTo.storedTip {first next : ℤ} (h : s.ScannedTo first next)
    (hlt : first < next) : s.latestScannedBlock.map BlockRow.height = some (next - 1) := by
  obtain ⟨row, hm, hh⟩ := h.last hlt
  cases hlatest : s.latestScannedBlock with
  | none =>
    have hnil : s.bitcoinBlocks.rows = [] := List.argmax_eq_none.mp hlatest
    rw [Table.mem_def, hnil] at hm
    exact absurd hm List.not_mem_nil
  | some tip =>
    obtain ⟨ht, hmax⟩ := Store.mem_of_latestScannedBlock hlatest
    have h₁ := hmax row hm
    have h₂ := h.below tip ht
    rw [Option.map_some, Option.some.injEq]
    omega

theorem scanBlock_timely {h : ℤ} {x : PyStr} {b : Block} (hat : c.at? h = some (x, b))
    (hc : c.Decoded) {network : PyStr} {found : ℕ} {Q : Py ℕ → Store → Prop}
    (done : Roomy s.Local s.keys b.accepted → ∀ n (s' : Store),
      s'.keys = storeKeys s.keys b.accepted → s'.batches = s.batches → s'.bitcoinBlocks = s.bitcoinBlocks →
        Q (.ok n) (s'.putBlock ⟨h, x, b.blockTime⟩))
    (stuck : ¬ Roomy s.Local s.keys b.accepted → ∀ e s', Q (.error e) s') :
    (scanBlock network found h).Alone c.timely (fun _ => True) Q s := by
  obtain ⟨h₀, htip⟩ := Chain.at?_bounds hat
  have hmem := Chain.mem_of_at? hat
  have hheight : sqliteInt h := ⟨by omega, htip.trans_lt hc.tip⟩
  have hhash : c.hashAt h = some x := by
    rw [Chain.hashAt, hat]
    rfl
  simp only [scanBlock, BitcoinRPC.blockHash, BitcoinRPC.block, if_neg (not_lt.mpr h₀), bind_eq,
    ensures_bind]
  apply rpc_timely.mpr
  simp only [Chain.answer, hhash, thenOk_ok, ensures_bind]
  apply rpc_timely.mpr
  simp only [Chain.answer, Chain.block?_of_at? hat, thenOk_ok, foldlM_scanTransaction, ensures_bind]
  apply recordOutputs_timely
  · intro o ho t ht
    exact ⟨hc.vout hmem ho, hheight, b.blockTime_fits, ht⟩
  · intro hroom n s' hk hb hbl
    simp only [thenOk_ok, ensures_bind]
    apply storage_timely.mpr
    simp only [Store.run, Store.addScannedBlock, if_pos (And.intro hheight b.blockTime_fits)]
    exact done hroom n s' hk hb hbl
  · exact stuck

/-- The blocks up to a height are scanned to the end exactly if there is room for their outputs. -/
theorem scanBlocks_timely {first next last : ℤ} (hc : c.Decoded) (h₀ : 0 ≤ next)
    (hnext : next ≤ last + 1) (hlast : last ≤ c.tip) {network : PyStr} {found : ℕ}
    {Q : Py ℕ → Store → Prop} (hs : s.ScannedTo first next) (hfirst : first ≤ next)
    (done : Roomy s.Local s.keys (c.outputs (heights next last)) →
      ∀ n (s' : Store), s'.ScannedTo first (last + 1) → Q (.ok n) s')
    (stuck : ¬ Roomy s.Local s.keys (c.outputs (heights next last)) → ∀ e s', Q (.error e) s') :
    ((heights next last).foldlM (scanBlock network) found).Alone c.timely (fun _ => True) Q s := by
  induction hk : (last + 1 - next).toNat generalizing next found s with
  | zero =>
    obtain rfl : next = last + 1 := by omega
    rw [heights_of_lt (Int.lt_succ last)] at done ⊢
    exact done trivial found s hs
  | succ k ih =>
    have hle : next ≤ last := by omega
    obtain ⟨⟨x, b⟩, hat⟩ := Chain.exists_at? h₀ (hle.trans hlast)
    have houts : c.outputs (heights next last) =
        b.accepted ++ c.outputs (heights (next + 1) last) := by
      rw [heights_of_le hle, Chain.outputs, List.flatMap_cons, hat]
      rfl
    rw [houts, roomy_append] at done stuck
    rw [heights_of_le hle, List.foldlM_cons, bind_eq, Alone, ensures_bind]
    apply scanBlock_timely hat hc
    · intro hroom n s₁ hkeys hbatches hblocks
      have hlocal : (s₁.putBlock ⟨next, x, b.blockTime⟩).Local = s.Local := by
        unfold Store.Local Store.putBlock
        rw [hbatches]
      have hkeys' : (s₁.putBlock ⟨next, x, b.blockTime⟩).keys = storeKeys s.keys b.accepted :=
        hkeys
      have hscanned : (s₁.putBlock ⟨next, x, b.blockTime⟩).ScannedTo first (next + 1) := by
        constructor
        · intro row hrow
          rcases Table.mem_insertReplace.mp hrow with ⟨hrow, -⟩ | rfl
          · rw [hblocks] at hrow
            have := hs.below row hrow
            omega
          · exact Int.lt_succ next
        · exact fun _ => ⟨_, Table.mem_insertReplace.mpr (Or.inr rfl), by simp⟩
      apply ih (by omega) (by omega) hscanned (by omega) _ _ (by omega)
      · intro hrest
        rw [hlocal, hkeys'] at hrest
        exact done ⟨hroom, hrest⟩
      · intro hrest
        rw [hlocal, hkeys'] at hrest
        exact stuck fun h => hrest h.2
    · exact fun hroom => stuck fun h => hroom h.1

/-- The highest stored block below a height that the chain still has. -/
def Store.ancestor (s : Store) (c : Chain) : ℕ → ℤ
  | 0 => -1
  | n + 1 =>
    if s.bitcoinBlocks.rows.any fun row => row.height = n ∧ c.hashAt n = some row.blockHash then n
    else s.ancestor c n

/-- The height from which the node scans a chain, and the store that is left when it starts. -/
def Store.resume (s : Store) (c : Chain) (start : ℤ) : ℤ × Store :=
  match s.latestScannedBlock with
  | none => (max 0 start, s)
  | some row =>
    if c.hashAt row.height = some row.blockHash then (row.height + 1, s)
    else
      let a := s.ancestor c (min c.tip row.height + 1).toNat
      (max start (a + 1), s.rewindBitcoinScan a)

def Chain.ahead (c : Chain) (next maxBlocks : ℤ) : List Output :=
  c.outputs (heights next (min c.tip (next + max 1 maxBlocks - 1)))

theorem blockHash_timely {h : ℤ} {Q : Py (Py PyStr) → Store → Prop}
    (active : ∀ x, c.hashAt h = some x → Q (.ok (.ok x)) s)
    (none : c.hashAt h = none → ∀ e, Q (.ok (.error e)) s) :
    (BitcoinRPC.blockHash h).outcome.Alone c.timely (fun _ => True) Q s := by
  apply ensures_outcome.mpr
  unfold BitcoinRPC.blockHash
  split_ifs with hneg
  · apply none
    simp [Chain.hashAt, Chain.at?, hneg]
  · apply rpc_timely.mpr
    cases hx : c.hashAt h with
    | none =>
      simp only [Chain.answer, hx]
      exact none hx _
    | some x =>
      simp only [Chain.answer, hx]
      exact active x hx

theorem ancestorBelow_timely {n : ℕ} {Q : Py ℤ → Store → Prop} (h : Q (.ok (s.ancestor c n)) s) :
    (ancestorBelow n).Alone c.timely (fun _ => True) Q s := by
  induction n with
  | zero => exact h
  | succ n ih =>
    have hbelow : (¬ ∃ row ∈ s.bitcoinBlocks, row.height = n ∧ c.hashAt n = some row.blockHash) →
        (ancestorBelow n).Alone c.timely (fun _ => True) Q s := by
      intro hnone
      apply ih
      rw [Store.ancestor, if_neg (by simpa [Table.mem_def] using hnone)] at h
      exact h
    simp only [ancestorBelow, bind_eq, ensures_bind]
    apply storage_timely.mpr
    simp only [Store.run, thenOk_ok]
    cases hfind : s.bitcoinBlocks.find? n with
    | none =>
      apply hbelow
      rintro ⟨row, hm, hh, -⟩
      exact Table.find?_eq_none.mp hfind row hm hh
    | some row =>
      obtain ⟨hm, hh⟩ := Table.find?_eq_some.mp hfind
      have honly : ∀ row' ∈ s.bitcoinBlocks, row'.height = n → row' = row := fun row' hm' hh' =>
        Table.eq_of_key hm' hm (hh'.trans hh.symm)
      simp only [ensures_bind]
      apply blockHash_timely
      · intro x hx
        simp only [thenOk_ok]
        split_ifs with he
        · rw [Store.ancestor, if_pos] at h
          · exact h
          · simp only [List.any_eq_true, decide_eq_true_eq]
            exact ⟨row, hm, hh, he ▸ hx⟩
        · apply hbelow
          rintro ⟨row', hm', hh', hx'⟩
          rw [hx, honly row' hm' hh'] at hx'
          exact he (Option.some.inj hx')
      · intro hx e
        apply hbelow
        rintro ⟨row', -, -, hx'⟩
        rw [hx] at hx'
        cases hx'

theorem entry_timely {start : ℤ} {Q : Py (Option ℤ × ℤ) → Store → Prop}
    (h : ∀ rewound, Q (.ok (rewound, (s.resume c start).1)) (s.resume c start).2) :
    (entry start c.tip).Alone c.timely (fun _ => True) Q s := by
  simp only [entry, bind_eq, ensures_bind]
  apply storage_timely.mpr
  simp only [Store.run, thenOk_ok]
  cases hlatest : s.latestScannedBlock with
  | none =>
    simp only [Store.resume, hlatest] at h
    exact h none
  | some row =>
    have hrewind : c.hashAt row.height ≠ some row.blockHash → ∀ height,
        height = min c.tip row.height →
        (rewindTo start height).Alone c.timely (fun _ => True) Q s := by
      rintro hne height rfl
      simp only [Store.resume, hlatest, if_neg hne] at h
      simp only [rewindTo, findCommonAncestor, bind_eq, ensures_bind]
      apply ancestorBelow_timely
      simp only [thenOk_ok, ensures_bind]
      exact storage_timely.mpr (h _)
    dsimp only
    split_ifs with htip
    · have hmin : row.height = min c.tip row.height := (min_eq_right htip).symm
      simp only [ensures_bind]
      apply blockHash_timely
      · intro x hx
        simp only [thenOk_ok]
        split_ifs with he
        · rw [he] at hx
          simp only [Store.resume, hlatest, if_pos hx] at h
          exact h none
        · apply hrewind _ _ hmin
          rw [hx]
          exact fun h => he (Option.some.inj h)
      · intro hx e
        apply hrewind _ _ hmin
        rw [hx]
        rintro ⟨⟩
    · apply hrewind _ _ (min_eq_left (not_le.mp htip).le).symm
      intro hx
      exact htip (Chain.hashAt_bounds hx).2

theorem Store.resume_bounds (s : Store) (c : Chain) (start : ℤ) :
    0 ≤ (s.resume c start).1 ∧ ∀ row ∈ (s.resume c start).2.bitcoinBlocks,
      row.height < (s.resume c start).1 := by
  unfold Store.resume
  cases hlatest : s.latestScannedBlock with
  | none =>
    have hnil : s.bitcoinBlocks.rows = [] := List.argmax_eq_none.mp hlatest
    refine ⟨le_max_left 0 start, fun row hrow => ?_⟩
    rw [Table.mem_def, hnil] at hrow
    exact absurd hrow List.not_mem_nil
  | some tip =>
    dsimp only
    split_ifs with hx
    · have h₀ := (Chain.hashAt_bounds hx).1
      refine ⟨by omega, fun row hrow => ?_⟩
      have := (Store.mem_of_latestScannedBlock hlatest).2 row hrow
      omega
    · have hlow : ∀ n, -1 ≤ s.ancestor c n := by
        intro n
        induction n with
        | zero => exact le_rfl
        | succ n ih =>
          rw [Store.ancestor]
          split_ifs
          · omega
          · exact ih
      have ha := hlow (min c.tip tip.height + 1).toNat
      refine ⟨by omega, fun row hrow => ?_⟩
      have := (Table.mem_deleteWhere.mp hrow).2
      simp only [decide_eq_false_iff_not] at this
      omega

theorem Store.resume_local (s : Store) (c : Chain) (start : ℤ) :
    (s.resume c start).2.Local = s.Local := by
  unfold Store.resume
  cases s.latestScannedBlock with
  | none => rfl
  | some row =>
    dsimp only
    split_ifs <;> rfl

/-- The scan has come to its end: if there is a block to scan, the stored tip is the last block of
the chain or of the call. -/
def Store.Advanced (s : Store) (c : Chain) (next maxBlocks : ℤ) : Prop :=
  next ≤ c.tip → s.latestScannedBlock.map BlockRow.height =
    some (min c.tip (next + max 1 maxBlocks - 1))

theorem scanBitcoin_timely {start maxBlocks : ℤ} (hc : c.Decoded) :
    (scanBitcoin start maxBlocks).Alone c.timely (fun _ => True) (fun r s' =>
      (Roomy s.Local (s.resume c start).2.keys (c.ahead (s.resume c start).1 maxBlocks) →
        (∃ x, r = .ok x) ∧ s'.Advanced c (s.resume c start).1 maxBlocks) ∧
      (¬ Roomy s.Local (s.resume c start).2.keys (c.ahead (s.resume c start).1 maxBlocks) →
        ∃ e, r = .error e)) s := by
  obtain ⟨h₀, hbelow⟩ := s.resume_bounds c start
  rw [← s.resume_local c start]
  simp only [scanBitcoin, BitcoinRPC.network, BitcoinRPC.blockCount, bind_eq, ensures_bind, pure_eq]
  apply rpc_timely.mpr
  simp only [Chain.answer, thenOk_ok, ensures_ret, ensures_bind]
  apply rpc_timely.mpr
  simp only [Chain.answer, thenOk_ok, ensures_bind]
  apply entry_timely
  intro rewound
  generalize (if c.network = ascii "main" then ascii "mainnet" else c.network) = network
  generalize (s.resume c start).1 = next at *
  generalize (s.resume c start).2 = s₁ at *
  simp only [thenOk_ok]
  have hempty : c.tip < next → c.ahead next maxBlocks = [] := by
    intro hlt
    rw [Chain.ahead, heights_of_lt ((min_le_left _ _).trans_lt hlt)]
    rfl
  split_ifs with hlt
  · rw [hempty hlt]
    exact ⟨fun _ => ⟨⟨_, rfl⟩, fun hle => absurd hle (not_le.mpr hlt)⟩,
      fun hn => absurd trivial hn⟩
  · have hle := not_lt.mp hlt
    have hlast : next ≤ min c.tip (next + max 1 maxBlocks - 1) := by omega
    simp only [ensures_bind]
    apply scanBlocks_timely hc h₀ (by omega) (min_le_left _ _)
      (⟨hbelow, fun h => absurd h (lt_irrefl next)⟩ : s₁.ScannedTo next next) le_rfl
    · intro hroom n s' hs'
      refine ⟨fun _ => ⟨⟨_, rfl⟩, fun _ => ?_⟩, fun hn => absurd hroom hn⟩
      rw [hs'.storedTip (by omega), add_sub_cancel_right]
    · exact fun hn e s' => ⟨fun hroom => absurd hroom hn, fun _ => ⟨e, rfl⟩⟩

theorem Chain.obeys_timely (c : Chain) : Obeys c.oracle c.timely := by
  have hobeys : Obeys c.oracle (environment c.truthful) := c.obeys_oracle fun _ _ _ => rfl
  intro β call s
  refine ⟨hobeys call s, ?_⟩
  rcases call with call | call | call
  · trivial
  · trivial
  · cases call with
    | time => exact ⟨0, rfl, by decide⟩
    | _ => trivial

/-- With every call to Bitcoin Core answered, a scan returns and advances the stored tip exactly if
every output with the payload of a stored batch is among the ten thousand oldest rows of the batch
when it has been stored. -/
theorem scan_returns_iff (s : Store) (start maxBlocks : ℤ) (hc : c.Decoded) :
    (∀ r s', (scanBitcoin start maxBlocks).Exec c.timely s r s' →
      (∃ x, r = .ok x) ∧ s'.Advanced c (s.resume c start).1 maxBlocks) ↔
    Roomy s.Local (s.resume c start).2.keys (c.ahead (s.resume c start).1 maxBlocks) := by
  constructor
  · intro hall
    by_contra hn
    have hexec := exec_eval c.obeys_timely (scanBitcoin start maxBlocks) s
    obtain ⟨⟨x, hx⟩, -⟩ := hall _ _ hexec
    obtain ⟨e, he⟩ := (Ensures.exec (fun _ => rfl) (scanBitcoin_timely hc) hexec).2 hn
    rw [he] at hx
    cases hx
  · intro hroom r s' hexec
    exact (Ensures.exec (fun _ => rfl) (scanBitcoin_timely hc) hexec).1 hroom

end Scan

theorem storeKeys_of_fresh {keys : List RowKey} {outs : List Output}
    (h : (keys.map Prod.fst ++ outs.map Output.point).Nodup) :
    storeKeys keys outs = keys ++ outs.map Output.key := by
  induction outs generalizing keys with
  | nil => exact (List.append_nil keys).symm
  | cons o outs ih =>
    have hfresh : o.key.1 ∉ keys.map Prod.fst := by
      intro hm
      exact (List.nodup_append.mp h).2.2 _ hm _ List.mem_cons_self rfl
    have hstep : upsertKey keys o.key = keys ++ [o.key] := if_neg hfresh
    have hnext : ((keys ++ [o.key]).map Prod.fst ++ outs.map Output.point).Nodup := by
      simpa [Output.key] using h
    calc storeKeys keys (o :: outs) = storeKeys (keys ++ [o.key]) outs := by
          rw [storeKeys, List.foldl_cons, hstep]
          rfl
      _ = keys ++ [o.key] ++ outs.map Output.key := ih hnext
      _ = keys ++ (o :: outs).map Output.key := by
          rw [List.append_assoc, List.map_cons, List.singleton_append]

/-- After ten thousand outputs for one local batch there is no room for another one. -/
theorem not_roomy_of_crowded {here : PyStr → PyStr → Prop} {outs : List Output} {o : Output}
    (hlen : 10000 ≤ outs.length) (hpoints : ((outs ++ [o]).map Output.point).Nodup)
    (hbatch : ∀ o' ∈ outs, o'.payload.manifestHash = o.payload.manifestHash)
    (hlocal : here o.payload.manifestHash o.payloadHex) : ¬ Roomy here [] (outs ++ [o]) := by
  intro hroomy
  have hlast : storeKeys [] (outs ++ [o]) = outs.map Output.key ++ [o.key] := by
    rw [storeKeys_of_fresh (by simpa using hpoints), List.nil_append, List.map_append]
    rfl
  rw [storeKeys_append] at hlast
  have hearly := (roomy_append.mp hroomy).2.1 hlocal
  rw [show upsertKey (storeKeys [] outs) o.key = _ from hlast, Early, List.filter_eq_self.mpr,
    List.take_append_of_le_length (by simpa using hlen)] at hearly
  · obtain ⟨o', ho', he⟩ := List.mem_map.mp (List.mem_of_mem_take hearly)
    rw [List.map_append, List.nodup_append] at hpoints
    exact hpoints.2.2 _ (List.mem_map_of_mem ho') _ List.mem_cons_self (Prod.mk.inj he).1
  · intro k hk
    rw [decide_eq_true_eq]
    rcases List.mem_append.mp hk with hk | hk
    · obtain ⟨o', ho', rfl⟩ := List.mem_map.mp hk
      exact hbatch o' ho'
    · rw [List.mem_singleton.mp hk]

def crowdedTx (n : ℕ) : Tx where
  txid := some (ascii "2f")
  vout := (List.range n).map fun i => ⟨some (UInt32.ofNat i), "6a26" ++ samplePayload⟩

theorem mem_crowdedTx {n : ℕ} {out : TxOut} {i : ℕ} (h : (out, i) ∈ (crowdedTx n).vout.zipIdx) :
    i < n ∧ out = ⟨some (UInt32.ofNat i), "6a26" ++ samplePayload⟩ := by
  obtain ⟨-, hlt, he⟩ := List.mem_zipIdx h
  simp only [crowdedTx, List.getElem_map, List.getElem_range, Nat.sub_zero] at he
  exact ⟨by simpa [crowdedTx] using hlt, he⟩

theorem crowdedTx_number {n : ℕ} (hn : n ≤ 2 ^ 32) {x : TxOut × ℕ}
    (h : x ∈ (crowdedTx n).vout.zipIdx) : x.1.number x.2 = x.2 := by
  obtain ⟨hlt, he⟩ := mem_crowdedTx h
  simp only [he, TxOut.number, Option.map_some, Option.getD_some]
  exact UInt32.toNat_ofNat_of_lt' (hlt.trans_le hn)

theorem zipIdx_crowdedTx (n : ℕ) : (crowdedTx n).vout.zipIdx.map Prod.snd = List.range n := by
  rw [List.zipIdx_map_snd, List.range_eq_range', crowdedTx, List.length_map, List.length_range]

theorem crowdedTx_numbers {n : ℕ} (hn : n ≤ 2 ^ 32) : (crowdedTx n).numbers = List.range n := by
  rw [← zipIdx_crowdedTx]
  exact List.map_congr_left fun x hx => crowdedTx_number hn hx

def crowdedChain : Chain where
  network := "signet"
  blocks := [sampleGenesis, ("0a", ⟨some 2, [crowdedTx 10001]⟩)]
  hashes_nodup := by decide
  txids_nodup := by decide
  numbers_nodup := by
    intro b hb t ht
    rcases List.mem_pair.mp hb with rfl | rfl
    · rw [List.mem_singleton.mp ht]
      decide
    · rw [List.mem_singleton.mp ht, crowdedTx_numbers (by omega)]
      exact List.nodup_range

def crowdedOutput (i : ℕ) : Output where
  point := (ascii "2f", i)
  payloadHex := samplePayload
  payload := ⟨3, 1, "5ca8c08e0aefbc9ecced864f9499b9f7c2b8af326257f6de2f9dd5488ba356fd"⟩

theorem crowdedTx_accepted {n : ℕ} (hn : n ≤ 2 ^ 32) :
    (crowdedTx n).accepted = (List.range n).map crowdedOutput := by
  have haccepted : acceptedPayload ("6a26" ++ samplePayload) =
      some (samplePayload, (crowdedOutput 0).payload) := by decide +kernel
  have hone : ∀ x ∈ (crowdedTx n).vout.zipIdx, ((acceptedPayload x.1.scriptHex).map fun p =>
      (⟨(ascii "2f", x.1.number x.2), p.1, p.2⟩ : Output)) = some (crowdedOutput x.2) := by
    intro x hx
    rw [crowdedTx_number hn hx, (mem_crowdedTx hx).2, haccepted]
    rfl
  calc (crowdedTx n).accepted
      = (crowdedTx n).vout.zipIdx.filterMap fun x => some (crowdedOutput x.2) :=
        List.filterMap_congr hone
    _ = ((crowdedTx n).vout.zipIdx.map Prod.snd).map crowdedOutput := by
        rw [List.filterMap_eq_map', List.map_map]
        rfl
    _ = (List.range n).map crowdedOutput := by rw [zipIdx_crowdedTx]

theorem crowdedTx_numbered {n : ℕ} {o : TxOut} (h : o ∈ (crowdedTx n).vout) : o.n ≠ none := by
  obtain ⟨i, -, rfl⟩ := List.mem_map.mp h
  exact Option.some_ne_none _

theorem crowdedChain_decoded : crowdedChain.Decoded where
  tip := by decide
  numbered := by
    intro b hb t ht o ho
    rcases List.mem_pair.mp hb with rfl | rfl
    · rw [List.mem_singleton.mp ht] at ho
      rw [List.mem_singleton.mp ho]
      decide
    · rw [List.mem_singleton.mp ht] at ho
      exact crowdedTx_numbered ho

section Witness

attribute [local instance] conformanceKeys

theorem scan_returns_iff_sample :
    (∀ r s', (scanBitcoin 0 500).Exec sampleOld.timely conformanceStore r s' →
      (∃ x, r = .ok x) ∧ s'.Advanced sampleOld (conformanceStore.resume sampleOld 0).1 500) ↔
    Roomy conformanceStore.Local (conformanceStore.resume sampleOld 0).2.keys
      (sampleOld.ahead (conformanceStore.resume sampleOld 0).1 500) :=
  scan_returns_iff conformanceStore 0 500 ⟨by decide, by decide⟩

theorem crowdedChain_ahead : crowdedChain.ahead 0 500 =
    (List.range 10000).map crowdedOutput ++ [crowdedOutput 10000] := by
  have hheights : heights 0 (min crowdedChain.tip (0 + max 1 500 - 1)) = [0, 1] := by
    decide +kernel
  have hgenesis : sampleGenesis.2.accepted = [] := rfl
  have h₀ : crowdedChain.at? 0 = some sampleGenesis := rfl
  have h₁ : crowdedChain.at? 1 = some (ascii "0a", ⟨some 2, [crowdedTx 10001]⟩) := rfl
  calc crowdedChain.ahead 0 500
      = sampleGenesis.2.accepted ++ (Block.mk (some 2) [crowdedTx 10001]).accepted := by
        simp only [Chain.ahead, hheights, Chain.outputs, List.flatMap_cons, List.flatMap_nil, h₀,
          h₁, Option.map_some, Option.getD_some, List.append_nil]
    _ = (crowdedTx 10001).accepted := by
        rw [hgenesis, List.nil_append, Block.accepted, List.flatMap_cons, List.flatMap_nil,
          List.append_nil]
    _ = (List.range 10000).map crowdedOutput ++ [crowdedOutput 10000] := by
        rw [crowdedTx_accepted (by omega), List.range_succ (n := 10000), List.map_append]
        rfl

/-- One transaction with ten thousand and one repetitions of the payload of a stored batch stops
the scanner. -/
theorem crowded_scan_fails : conformanceStore.Reached {storedBatch} ∧ crowdedChain.Decoded ∧
    ∃ e s', (scanBitcoin 0 500).Exec crowdedChain.timely conformanceStore (.error e) s' := by
  refine ⟨conformanceStore_reached, crowdedChain_decoded, ?_⟩
  have hlocal : conformanceStore.Local
      "5ca8c08e0aefbc9ecced864f9499b9f7c2b8af326257f6de2f9dd5488ba356fd" samplePayload :=
    Store.find?_batch_any.mp (by decide +kernel)
  have hstuck : ¬ Roomy conformanceStore.Local (conformanceStore.resume crowdedChain 0).2.keys
      (crowdedChain.ahead (conformanceStore.resume crowdedChain 0).1 500) := by
    have hresume : conformanceStore.resume crowdedChain 0 = (0, conformanceStore) := rfl
    have hkeys : conformanceStore.keys = [] := rfl
    rw [hresume, hkeys, crowdedChain_ahead]
    apply not_roomy_of_crowded _ _ _ hlocal
    · rw [List.length_map, List.length_range]
    · have hpoints : ((List.range 10000).map crowdedOutput ++ [crowdedOutput 10000]).map
          Output.point = (List.range 10001).map fun i => (ascii "2f", i) := by
        rw [List.range_succ (n := 10000), List.map_append, List.map_append, List.map_map]
        rfl
      rw [hpoints]
      exact List.nodup_range.map fun i j h => (Prod.mk.inj h).2
    · intro o ho
      obtain ⟨i, -, rfl⟩ := List.mem_map.mp ho
      rfl
  have hexec := exec_eval crowdedChain.obeys_timely (scanBitcoin 0 500) conformanceStore
  obtain ⟨e, he⟩ :=
    (Ensures.exec (fun _ => rfl) (scanBitcoin_timely crowdedChain_decoded) hexec).2 hstuck
  exact ⟨e, _, he ▸ hexec⟩

end Witness

end HistoryAnchor

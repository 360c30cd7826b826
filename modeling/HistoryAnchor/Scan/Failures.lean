import HistoryAnchor.Effects.Scripts
import HistoryAnchor.Scan.Switching

/-! # Failing calls for block hashes

One chain stays active and some calls of `block_hash` fail. A failing call at the
stored tip counts as a replaced block, and so does one at a candidate of the
ancestor search: the node rewinds to the highest stored block whose call is
answered, and forgets every commitment above it.
-/

namespace HistoryAnchor

open Python Effects Prog Discovery Tables

section Runs

variable [Ed25519] {c : Chain} {s s' s₀ : Store} {fails : ℕ → Option Exc}

/-- What `scan_bitcoin` does before the first block. -/
def scanEntry (startHeight : ℤ) : Node (PyStr × ℤ × Option ℤ × ℤ) := do
  let network ← BitcoinRPC.network
  let tip ← BitcoinRPC.blockCount
  let next ← entry startHeight tip
  return (network, tip, next)

def scanFrom (maxBlocks : ℤ) : PyStr × ℤ × Option ℤ × ℤ → Node ScanResult
  | (network, tip, rewindHeight, nextHeight) =>
    if tip < nextHeight then
      return ⟨network, nextHeight, tip, 0, 0, rewindHeight⟩
    else do
      let endHeight := min tip (nextHeight + max 1 maxBlocks - 1)
      let found ← (heights nextHeight endHeight).foldlM (scanBlock network) 0
      return ⟨network, nextHeight, endHeight, endHeight - nextHeight + 1, found, rewindHeight⟩

theorem scanBitcoin_eq (startHeight maxBlocks : ℤ) :
    scanBitcoin startHeight maxBlocks = (scanEntry startHeight).bind (scanFrom maxBlocks) := by
  simp only [scanBitcoin, scanEntry, bind_eq, pure_eq, bind_assoc, ret_bind]
  rfl

/-- The `n`-th call of `block_hash` fails as `fails n` says. -/
def failingHashes (c : Chain) (fails : ℕ → Option Exc) : Script NodeCall Exc
  | _, .rpc (.getblockhash h) => some fun n =>
    match fails n with
    | some e => .error e
    | none => c.answer (.getblockhash h)
  | _, _ => none

/-- The chain is active, and Bitcoin Core answers all calls but the failing ones; the state counts
the calls of `block_hash`. -/
def Chain.failing (c : Chain) (fails : ℕ → Option Exc) : Handler NodeCall Exc (Store × ℕ) :=
  numbered (environment c.truthful) (failingHashes c fails)

theorem failing_flaky {α : Type} {p : Node α} {G : Store → Prop} {Q : Py α → Store → Prop} {n : ℕ}
    (h : p.Alone (environment c.flaky) G Q s) :
    p.Alone (c.failing fails) (fun t => G t.1) (fun r t => Q r t.1) (s, n) := by
  apply Alone.numbered _ _ h
  · intro β call s x s' hx
    cases call with
    | rpc call => exact ⟨Or.inl hx.1, hx.2⟩
    | _ => exact hx
  · intro β call answer hc s n
    cases call with
    | rpc call =>
      cases call with
      | getblockhash h =>
        obtain rfl := Option.some.inj hc
        refine ⟨?_, rfl⟩
        dsimp only
        cases fails n with
        | some e => exact Or.inr ⟨e, rfl⟩
        | none => exact Or.inl rfl
      | _ => cases hc
    | _ => cases hc

section Calls

variable {α : Type} {n : ℕ} {G : Store × ℕ → Prop}

theorem storage_failing {call : StorageCall α} {Q : Py α → Store × ℕ → Prop} :
    (storage call).Alone (c.failing fails) G Q (s, n) ↔
      G ((s.run call).2, n) ∧ Q (s.run call).1 ((s.run call).2, n) := by
  rw [storage, Chain.failing, alone_perform_unscripted rfl]
  constructor
  · intro h
    exact h _ _ rfl
  · intro h x s' hx
    obtain ⟨rfl, rfl⟩ := Prod.mk.inj hx
    exact h

theorem blockHash_failing {h : ℤ} {x : PyStr} {Q : Py PyStr → Store × ℕ → Prop}
    (hx : c.hashAt h = some x) (hG : G (s, n + 1)) (failed : ∀ e, fails n = some e →
      Q (.error e) (s, n + 1)) (answered : fails n = none → Q (.ok x) (s, n + 1)) :
    (BitcoinRPC.blockHash h).Alone (c.failing fails) G Q (s, n) := by
  have h₀ := (Chain.hashAt_bounds hx).1
  rw [BitcoinRPC.blockHash, if_neg (not_lt.mpr h₀), rpc, Chain.failing, alone_perform_scripted rfl]
  refine ⟨hG, ?_⟩
  cases hn : fails n with
  | some e => exact failed e hn
  | none =>
    simp only [Chain.answer, hx]
    exact answered hn

end Calls

namespace Store

def blocksBetween (s : Store) (h k : ℤ) : ℕ :=
  ((s.bitcoinBlocks.rows.map BlockRow.height).filter fun j => h < j ∧ j < k).length

/-- The search below `k`, begun with the `n`-th call, finds the block active. -/
def Answered (s : Store) (fails : ℕ → Option Exc) (n : ℕ) (k : ℤ) (row : BlockRow) : Prop :=
  row ∈ s.bitcoinBlocks ∧ row.height < k ∧ fails (n + s.blocksBetween row.height k) = none

/-- The search ends at the highest block found active, or at none. -/
def SearchEnds (s : Store) (fails : ℕ → Option Exc) (n : ℕ) (k a : ℤ) : Prop :=
  (a = -1 ∨ ∃ row, s.Answered fails n k row ∧ row.height = a) ∧
    ∀ row, s.Answered fails n k row → row.height ≤ a

theorem blocksBetween_of_find?_none {k : ℤ} (hk : s.bitcoinBlocks.find? k = none) (h : ℤ) :
    s.blocksBetween h (k + 1) = s.blocksBetween h k := by
  unfold blocksBetween
  congr 1
  apply List.filter_congr
  intro j hj
  obtain ⟨row, hr, rfl⟩ := List.mem_map.mp hj
  have hne := Table.find?_eq_none.mp hk row hr
  rw [decide_eq_decide]
  omega

theorem blocksBetween_of_mem {k h : ℤ} {row : BlockRow} (hm : row ∈ s.bitcoinBlocks)
    (hk : row.height = k) (hlt : h < k) :
    s.blocksBetween h (k + 1) = s.blocksBetween h k + 1 := by
  have hnd := s.bitcoinBlocks.nodup
  have hperm : ((s.bitcoinBlocks.rows.map BlockRow.height).filter fun j => h < j ∧ j < k + 1).Perm
      (k :: (s.bitcoinBlocks.rows.map BlockRow.height).filter fun j => h < j ∧ j < k) := by
    rw [List.perm_ext_iff_of_nodup (hnd.filter _)]
    · intro j
      simp only [List.mem_cons, List.mem_filter, decide_eq_true_eq]
      constructor
      · rintro ⟨hj, h₁, h₂⟩
        by_cases he : j = k
        · exact Or.inl he
        · exact Or.inr ⟨hj, h₁, by omega⟩
      · rintro (rfl | ⟨hj, h₁, h₂⟩)
        · exact ⟨hk ▸ List.mem_map_of_mem hm, hlt, by omega⟩
        · exact ⟨hj, h₁, by omega⟩
    · rw [List.nodup_cons]
      exact ⟨by simp, hnd.filter _⟩
  exact hperm.length_eq

theorem blocksBetween_self (s : Store) (h : ℤ) : s.blocksBetween h (h + 1) = 0 := by
  rw [blocksBetween, List.length_eq_zero_iff, List.filter_eq_nil_iff]
  intro j _
  simp only [decide_eq_true_eq]
  omega

end Store

theorem ancestorBelow_failing {k n : ℕ} {G : Store × ℕ → Prop} {Q : Py ℤ → Store × ℕ → Prop}
    (hon : s.On c) (hG : ∀ m, G (s, m))
    (found : ∀ a m, s.SearchEnds fails n k a → Q (.ok a) (s, m)) :
    (ancestorBelow k).Alone (c.failing fails) G Q (s, n) := by
  induction k generalizing n with
  | zero =>
    have hneg : ∀ row, s.Answered fails n (0 : ℕ) row → row.height ≤ -1 := by
      rintro row ⟨hm, hlt, -⟩
      have := (Chain.hashAt_bounds (hon row hm)).1
      omega
    exact found (-1) n ⟨Or.inl rfl, hneg⟩
  | succ k ih =>
    simp only [ancestorBelow, bind_eq, ensures_bind]
    apply storage_failing.mpr
    refine ⟨hG n, ?_⟩
    simp only [Store.run, thenOk_ok]
    cases hfind : s.bitcoinBlocks.find? k with
    | none =>
      have hans : ∀ row, s.Answered fails n (k + 1 : ℕ) row ↔ s.Answered fails n k row := by
        intro row
        have hb := Store.blocksBetween_of_find?_none hfind row.height
        simp only [Store.Answered, Nat.cast_succ, hb]
        refine and_congr_right fun hm => and_congr_left fun _ => ?_
        have hne := Table.find?_eq_none.mp hfind row hm
        omega
      apply ih
      intro a m h
      apply found a m
      simpa only [Store.SearchEnds, hans] using h
    | some row =>
      obtain ⟨hm, hh⟩ := Table.find?_eq_some.mp hfind
      have hself : s.Answered fails n (k + 1 : ℕ) row ↔ fails n = none := by
        simp only [Store.Answered, Nat.cast_succ, hh, Store.blocksBetween_self, Nat.add_zero]
        exact ⟨fun h => h.2.2, fun h => ⟨hm, Int.lt_succ _, h⟩⟩
      simp only [ensures_bind, ensures_outcome]
      apply blockHash_failing (hh ▸ hon row hm) (hG (n + 1))
      · -- A failing call: the search goes on below, one call later.
        intro e he
        have hans : ∀ r, s.Answered fails n (k + 1 : ℕ) r ↔ s.Answered fails (n + 1) k r := by
          intro r
          by_cases hr : r = row
          · subst hr
            rw [hself, he]
            simp only [reduceCtorEq, false_iff]
            rintro ⟨-, hlt, -⟩
            omega
          · constructor
            · rintro ⟨hm', hlt, hf⟩
              have hne : r.height ≠ k := fun heq => hr (Table.eq_of_key hm' hm (heq.trans hh.symm))
              have hlt' : r.height < k := by push_cast at hlt; omega
              have hb := Store.blocksBetween_of_mem hm hh hlt'
              rw [Nat.cast_succ, hb, ← Nat.add_assoc, Nat.add_right_comm] at hf
              exact ⟨hm', hlt', hf⟩
            · rintro ⟨hm', hlt', hf⟩
              have hb := Store.blocksBetween_of_mem hm hh hlt'
              refine ⟨hm', by push_cast; omega, ?_⟩
              rwa [Nat.cast_succ, hb, ← Nat.add_assoc, Nat.add_right_comm]
        simp only [thenOk_ok]
        apply ih
        intro a m h
        apply found a m
        simpa only [Store.SearchEnds, hans] using h
      · intro hn
        simp only [thenOk_ok, if_true]
        refine found k (n + 1) ⟨Or.inr ⟨row, hself.mpr hn, hh⟩, ?_⟩
        rintro r ⟨-, hlt, -⟩
        push_cast at hlt
        omega

/-- The rows of `s₀` are still there, and its confirmed anchors are still confirmed. -/
structure Store.Retains (s₀ s : Store) : Prop where
  rows : s₀.cores ⊆ s.cores
  anchors : ∀ a ∈ s₀.anchors, a.status = .confirmed →
    ∃ a' ∈ s.anchors, a'.point = a.point ∧ a'.status = .confirmed

namespace Store.Retains

theorem refl (s : Store) : s.Retains s := ⟨subset_rfl, fun a ha h => ⟨a, ha, rfl, h⟩⟩

theorem upsert {o : Output} {ctx : BlockContext} {t : ℤ} {h : (o.row ctx t).Fits}
    (hs : s₀.Retains s) (hc : ∀ x ∈ s.cores, c.Commits x)
    (ho : c.Commits (o.core ctx.height ctx.blockHash)) :
    s₀.Retains (s.upsertCommitment (o.row ctx t) h) := by
  refine ⟨fun x hx => ?_, hs.anchors⟩
  rw [cores_upsertCommitment]
  by_cases hp : x.point = o.point
  · exact Or.inl ((hc x (hs.rows hx)).eq_of_point ho hp)
  · exact Or.inr ⟨hs.rows hx, hp⟩

theorem confirm {r : Commitment} (hs : s₀.Retains s) (hl : ∃ b ∈ s.batches, b.batchId = r.batchId) :
    s₀.Retains (s.confirm r) := by
  refine ⟨by rw [cores_confirm]; exact hs.rows, fun a ha hst => ?_⟩
  obtain ⟨a', ha', hp, hst'⟩ := hs.anchors a ha hst
  by_cases hr : a'.point = r.point
  · exact ⟨_, (mem_confirm hl).mpr (Or.inr rfl), hr.symm.trans hp, rfl⟩
  · exact ⟨a', (mem_confirm hl).mpr (Or.inl ⟨ha', hr⟩), hp, hst'⟩

theorem register {r : Commitment} (hs : s₀.Retains s)
    (hl : ∃ b ∈ s.batches, b.batchId = r.batchId) : s₀.Retains (s.register r) := by
  constructor
  · rw [cores_register]
    exact hs.rows
  · exact (hs.confirm hl).anchors

theorem rewind {a : ℤ} (h : ∀ r ∈ s.commitments, r.blockHeight ≤ a) :
    s.Retains (s.rewindBitcoinScan a) := by
  constructor
  · rw [cores_rewindBitcoinScan]
    rintro _ ⟨r, hr, rfl⟩
    exact ⟨⟨r, hr, rfl⟩, h r hr⟩
  · intro x hx hst
    refine ⟨x, mem_anchors_rewindBitcoinScan.mpr ⟨x, hx, ?_⟩, rfl, hst⟩
    rw [if_neg]
    rintro ⟨r, hr, hlt, -⟩
    exact absurd (h r hr) (not_le.mpr hlt)

end Store.Retains

theorem scanFrom_retains {maxBlocks : ℤ} {x : PyStr × ℤ × Option ℤ × ℤ} (hs : s₀.Retains s)
    (hc : ∀ x ∈ s.cores, c.Commits x) :
    (scanFrom maxBlocks x).Alone (environment c.flaky) s₀.Retains (fun _ => s₀.Retains) s := by
  obtain ⟨network, tip, rewindHeight, nextHeight⟩ := x
  unfold scanFrom
  dsimp only
  split_ifs
  · exact hs
  simp only [bind_eq, ensures_bind]
  apply ensures_foldlM fun _ _ s => s₀.Retains s ∧ ∀ x ∈ s.cores, c.Commits x
  · rintro - h - found s₁ - ⟨hs₁, hc₁⟩
    apply scanBlock_alone hs₁ (fun _ => hs₁) fun _ _ _ s => s₀.Retains s ∧
      ∀ x ∈ s.cores, c.Commits x
    · exact fun _ _ _ => ⟨hs₁, hc₁⟩
    · rintro x b hf done o rest s₂ hb ⟨hs₂, hc₂⟩
      have ho : o ∈ b.accepted := hb ▸ List.mem_append_right _ List.mem_cons_self
      have hcommits : c.Commits (o.core h x) :=
        Chain.commits_of_mem (c.flaky_within.at? hf) ho
      set ctx : BlockContext := ⟨network, h, x, b.blockTime⟩ with hctx
      have hup : ∀ t hfit, s₀.Retains (s₂.upsertCommitment (o.row ctx t) hfit) := fun t hfit =>
        hs₂.upsert hc₂ hcommits
      have hcores : ∀ t hfit, ∀ y ∈ (s₂.upsertCommitment (o.row ctx t) hfit).cores,
          c.Commits y := by
        intro t hfit y hy
        rw [Store.cores_upsertCommitment] at hy
        rcases hy with rfl | ⟨hy, -⟩
        · exact hcommits
        · exact hc₂ y hy
      apply recordCommitment_alone hs₂
      · exact fun _ => hs₂
      · exact hup
      · exact fun t hfit _ => ⟨hup t hfit, hcores t hfit⟩
      · intro t hfit hl r _ he
        have hb' := (Store.local_of_core_eq (b := ctx) hl he).exists_batch
        have hreg := (hup t hfit).register hb'
        refine ⟨(hup t hfit).confirm hb', hreg, hreg, ?_⟩
        rw [Store.cores_register]
        exact hcores t hfit
      · exact fun t hfit _ _ _ => hup t hfit
    · rintro x b - s₂ ⟨hs₂, hc₂⟩
      have hput : s₀.Retains (s₂.putBlock ⟨h, x, b.blockTime⟩) := ⟨hs₂.rows, hs₂.anchors⟩
      exact ⟨hs₂, fun _ => hs₂, hput, fun _ => ⟨hput, hc₂⟩⟩
  · rintro _ s₁ ⟨hs₁, -⟩
    exact hs₁
  · exact ⟨hs, hc⟩

/-- What the entry of a scan does: it goes on above the stored tip, or rewinds to where the search
ends. -/
theorem scanEntry_failing {start : ℤ} {G : Store × ℕ → Prop}
    {Q : Py (PyStr × ℤ × Option ℤ × ℤ) → Store × ℕ → Prop} (hon : s.On c) (hG : ∀ m, G (s, m))
    (kept : s.latestScannedBlock = none ∨ fails 0 = none → ∀ x m, Q (.ok x) (s, m))
    (rewound : ∀ row, s.latestScannedBlock = some row → fails 0 ≠ none →
      ∀ a m, s.SearchEnds fails 1 (row.height + 1) a →
        G (s.rewindBitcoinScan a, m) ∧ ∀ x, Q (.ok x) (s.rewindBitcoinScan a, m)) :
    (scanEntry start).Alone (c.failing fails) G Q (s, 0) := by
  have hcall : ∀ {α : Type} {call : RpcCall α} {Q : Py α → Store × ℕ → Prop},
      failingHashes c fails (.rpc call) = none → G (s, 0) → Q (c.answer call) (s, 0) →
      (rpc call).Alone (c.failing fails) G Q (s, 0) := by
    intro α call Q hnone hG hQ
    apply (alone_perform_unscripted hnone).mpr
    rintro x s' ⟨rfl, rfl⟩
    exact ⟨hG, hQ⟩
  simp only [scanEntry, BitcoinRPC.network, BitcoinRPC.blockCount, bind_eq, pure_eq, ensures_bind]
  apply hcall rfl (hG 0)
  simp only [Chain.answer, thenOk_ok, ensures_ret, ensures_bind]
  apply hcall rfl (hG 0)
  simp only [Chain.answer, thenOk_ok, entry, bind_eq, ensures_bind]
  apply storage_failing.mpr
  refine ⟨hG 0, ?_⟩
  simp only [Store.run, thenOk_ok]
  cases hlatest : s.latestScannedBlock with
  | none => exact kept (Or.inl hlatest) _ _
  | some row =>
    have hx := hon row (Store.mem_of_latestScannedBlock hlatest).1
    obtain ⟨h₀, htip⟩ := Chain.hashAt_bounds hx
    simp only [if_pos htip, ensures_bind, ensures_outcome]
    apply blockHash_failing hx (hG 1)
    · intro e he
      have hcast : ((row.height + 1).toNat : ℤ) = row.height + 1 := by omega
      simp only [thenOk_ok, rewindTo, findCommonAncestor, bind_eq, pure_eq, ensures_bind]
      apply ancestorBelow_failing hon hG
      intro a m hends
      rw [hcast] at hends
      obtain ⟨hG', hQ⟩ := rewound row hlatest (by simp [he]) a m hends
      simp only [thenOk_ok, ensures_bind]
      exact storage_failing.mpr ⟨hG', hQ _⟩
    · intro hn
      simp only [thenOk_ok, if_true]
      exact kept (Or.inr hn) _ _

/-- A pattern of failing calls of `block_hash` loses no row and no confirmation, at any point of the
call, exactly if nothing is stored, the call for the stored tip is answered, or some call of the
ancestor search is answered whose block has no commitment above it. -/
theorem failing_scan_retains_iff (start maxBlocks : ℤ) (hon : s.On c)
    (hrows : ∀ x ∈ s.cores, c.Commits x) :
    (∀ p s' n, Steps (c.failing fails) (scanBitcoin start maxBlocks, (s, 0)) (p, (s', n)) →
      s.Retains s') ↔
    s.bitcoinBlocks.rows = [] ∨ s.commitments.rows = [] ∨ fails 0 = none ∨
      ∃ row ∈ s.bitcoinBlocks, (∀ r ∈ s.commitments, r.blockHeight ≤ row.height) ∧
        ∃ tip, s.latestScannedBlock = some tip ∧
          fails (1 + s.blocksBetween row.height (tip.height + 1)) = none := by
  have hlow : ∀ r ∈ s.commitments, 0 ≤ r.blockHeight := fun r hr =>
    (Chain.hashAt_bounds (hrows r.core ⟨r, hr, rfl⟩).hashAt).1
  rw [scanBitcoin_eq]
  constructor
  · intro hsteps
    by_contra! hnot
    obtain ⟨hb, hc, h₀, hnone⟩ := hnot
    -- The run up to the rewind.
    have hrun : (scanEntry start).Alone (c.failing fails) (fun _ => True)
        (fun r t => ∃ x, r = .ok x ∧ ∃ row, s.latestScannedBlock = some row ∧
          ∃ a, s.SearchEnds fails 1 (row.height + 1) a ∧ t.1 = s.rewindBitcoinScan a) (s, 0) := by
      apply scanEntry_failing hon fun _ => trivial
      · rintro (h | h)
        · exact absurd (List.argmax_eq_none.mp h) hb
        · exact absurd h h₀
      · exact fun row hrow _ a m hends => ⟨trivial, fun x => ⟨x, rfl, row, hrow, a, hends, rfl⟩⟩
    have hobeys : Obeys c.oracle (environment c.truthful) := c.obeys_oracle fun _ _ _ => rfl
    have hexec : (scanEntry start).Exec (c.failing fails) (s, 0) _ _ :=
      exec_eval (obeys_numbered hobeys) (scanEntry start) (s, 0)
    obtain ⟨x, hok, tip, htip, a, ⟨ha, -⟩, hs'⟩ := Ensures.exec (fun _ => rfl) hrun hexec
    rw [hok] at hexec
    have hret := hsteps _ _ _ (steps_bind_of_exec hexec)
    rw [hs'] at hret
    have hbelow : ∀ r ∈ s.commitments, r.blockHeight ≤ a := by
      intro r hr
      have hm := hret.rows ⟨r, hr, rfl⟩
      rw [Store.cores_rewindBitcoinScan] at hm
      exact hm.2
    rcases ha with rfl | ⟨row, ⟨hm, hlt, hf⟩, rfl⟩
    · obtain ⟨r, hr⟩ := List.exists_mem_of_ne_nil _ hc
      have h₁ := hbelow r hr
      have h₂ := hlow r hr
      omega
    · exact hnone row hm hbelow tip htip hf
  · intro hcond p s' n hx
    have hfrom : ∀ x s₁ m, s.Retains s₁ → (∀ x ∈ s₁.cores, c.Commits x) →
        (scanFrom maxBlocks x).Alone (c.failing fails) (fun t => s.Retains t.1)
          (fun _ t => s.Retains t.1) (s₁, m) := fun x s₁ m hs₁ hc₁ =>
      failing_flaky (scanFrom_retains hs₁ hc₁)
    have hrun : ((scanEntry start).bind (scanFrom maxBlocks)).Alone (c.failing fails)
        (fun t => s.Retains t.1) (fun _ t => s.Retains t.1) (s, 0) := by
      rw [Alone, ensures_bind]
      apply scanEntry_failing hon fun _ => .refl s
      · exact fun _ x m => hfrom x s m (.refl s) hrows
      · rintro tip htip h₀ a m ⟨-, hmax⟩
        have hbelow : ∀ r ∈ s.commitments, r.blockHeight ≤ a := by
          rcases hcond with hb | hc | h | ⟨row, hm, hup, tip', htip', hf⟩
          · have hmem := (Store.mem_of_latestScannedBlock htip).1
            rw [Table.mem_def, hb] at hmem
            exact absurd hmem List.not_mem_nil
          · intro r hr
            rw [Table.mem_def, hc] at hr
            exact absurd hr List.not_mem_nil
          · exact absurd h h₀
          · obtain rfl : tip = tip' := Option.some.inj (htip.symm.trans htip')
            have hle := (Store.mem_of_latestScannedBlock htip).2 row hm
            have hra := hmax row ⟨hm, Int.lt_add_one_iff.mpr hle, hf⟩
            exact fun r hr => (hup r hr).trans hra
        have hret := Store.Retains.rewind hbelow
        refine ⟨hret, fun x => hfrom x _ m hret ?_⟩
        rw [Store.cores_rewindBitcoinScan]
        exact fun y hy => hrows y hy.1
    exact (Alone.steps hrun (Store.Retains.refl s) hx).1

end Runs

section Witness

attribute [local instance] conformanceKeys

/-- The store after a scan of the chain with a commitment to the stored batch. -/
def samplePublished : Store := rescanned sampleOld conformanceStore

theorem samplePublished_commits : ∀ x ∈ samplePublished.cores, sampleOld.Commits x := by
  have hscan : Scans {sampleOld} 0 conformanceStore sampleOld samplePublished :=
    .one rfl (@ScanCall.of_eval _ 0 500 sampleOld conformanceStore (by decide +kernel))
  obtain ⟨-, -, next, hf⟩ := hscan.follows (fun c _ => Keeps.trivial c ∅)
    (by rintro c rfl c' rfl; decide) le_rfl (hashes_of_rows rfl) (cores_of_rows rfl) trivial
  intro x hx
  rw [hf.cores, overlay_empty] at hx
  exact hx.1

def unreachable (_ : ℕ) : Option Exc :=
  some ⟨.bitcoinRPCError, "getblockhash: Bitcoin Core RPC request failed"⟩

theorem failing_scan_retains_iff_sample :
    (∀ p s' n, Steps (sampleOld.failing unreachable) (scanBitcoin 0 500, (samplePublished, 0))
      (p, (s', n)) → samplePublished.Retains s') ↔
    samplePublished.bitcoinBlocks.rows = [] ∨ samplePublished.commitments.rows = [] ∨
      unreachable 0 = none ∨ ∃ row ∈ samplePublished.bitcoinBlocks,
        (∀ r ∈ samplePublished.commitments, r.blockHeight ≤ row.height) ∧
        ∃ tip, samplePublished.latestScannedBlock = some tip ∧
          unreachable (1 + samplePublished.blocksBetween row.height (tip.height + 1)) = none :=
  failing_scan_retains_iff 0 500 (by decide +kernel) samplePublished_commits

/-- When every call fails, the scan raises and has forgotten the commitment; its anchor is no longer
confirmed, although the chain never changed. -/
theorem failing_scan_unpublishes : samplePublished.On sampleOld ∧
    (∀ x ∈ samplePublished.cores, sampleOld.Commits x) ∧
    (∃ a ∈ samplePublished.anchors, a.point = (ascii "1f", 1) ∧ a.status = .confirmed) ∧
    (∃ r ∈ samplePublished.commitments, r.point = (ascii "1f", 1)) ∧ ∃ r t,
      (scanBitcoin 0 500).Exec (sampleOld.failing unreachable) (samplePublished, 0) r t ∧
      t.1.commitments.rows = [] ∧
      ∃ a ∈ t.1.anchors, a.point = (ascii "1f", 1) ∧ a.status = .reorganised :=
  have hobeys : Obeys sampleOld.oracle (environment sampleOld.truthful) :=
    sampleOld.obeys_oracle fun _ _ _ => rfl
  ⟨by decide +kernel, samplePublished_commits, by decide +kernel, by decide +kernel, _, _,
    exec_eval (obeys_numbered hobeys) (scanBitcoin 0 500) (samplePublished, 0), by decide +kernel,
    by decide +kernel⟩

end Witness

end HistoryAnchor

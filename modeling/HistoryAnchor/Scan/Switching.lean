import HistoryAnchor.Scan.Interruption

/-! # Switches of the chain during a scan

The active chain may change before every call to Bitcoin Core. The scanner never
checks that a block links to the one before, so the stored blocks may come to
mix two chains; a later scan looks at the stored tip only. They stay on one chain
as long as every new height is fetched while all stored blocks are active.
-/

namespace HistoryAnchor

open Python Effects Prog Discovery Tables

section Runs

variable [Ed25519] {F : Set Chain} {s s' : Store} {c d : Chain}

namespace Store

def On (s : Store) (c : Chain) : Prop :=
  ∀ row ∈ s.bitcoinBlocks, c.hashAt row.height = some row.blockHash

def Settled (s : Store) : Prop := ∀ x ∈ s.cores, (x.height, x.blockHash) ∈ s.hashes

def Below (s : Store) (height : ℤ) : Prop := ∀ row ∈ s.bitcoinBlocks, row.height < height

instance (s : Store) (c : Chain) : Decidable (s.On c) :=
  inferInstanceAs (Decidable (∀ row ∈ s.bitcoinBlocks.rows, _))

theorem settled_iff : s.Settled ↔ ∀ r ∈ s.commitments, ∃ row ∈ s.bitcoinBlocks,
    (row.height, row.blockHash) = (r.blockHeight, r.blockHash) := by
  constructor
  · exact fun h r hr => h r.core ⟨r, hr, rfl⟩
  · rintro h _ ⟨r, hr, rfl⟩
    exact h r hr

theorem On.rewind (h : s.On c) (a : ℤ) : (s.rewindBitcoinScan a).On c := fun row hr =>
  h row (Table.mem_deleteWhere.mp hr).1

theorem Settled.rewind (h : s.Settled) (a : ℤ) : (s.rewindBitcoinScan a).Settled := by
  intro x hx
  rw [cores_rewindBitcoinScan] at hx
  rw [hashes_rewindBitcoinScan]
  exact ⟨h x hx.1, hx.2⟩

theorem below_rewind (s : Store) (a : ℤ) : (s.rewindBitcoinScan a).Below (a + 1) := by
  intro row hr
  have := (Table.mem_deleteWhere.mp hr).2
  simp only [decide_eq_false_iff_not, not_lt] at this
  omega

theorem On.of_agree (h : s.On c) (ha : c.Agree d) {a : ℤ} {x : PyStr} (hc : c.hashAt a = some x)
    (hd : d.hashAt a = some x) (hle : ∀ row ∈ s.bitcoinBlocks, row.height ≤ a) : s.On d := by
  intro row hr
  rw [Chain.hashAt, ← ha.below hc hd _ (Int.lt_add_one_iff.mpr (hle row hr))]
  exact h row hr

/-- A row of the block joins the rows of stored blocks, which all lie on one chain. -/
theorem On.putBlock {h : ℤ} {x : PyStr} (time : ℤ) (hs : s.On c) (hx : c.hashAt h = some x)
    (hb : s.Below h) : (s.putBlock ⟨h, x, time⟩).On c ∧ (s.putBlock ⟨h, x, time⟩).Below (h + 1) ∧
      insert (h, x) s.hashes ⊆ (s.putBlock ⟨h, x, time⟩).hashes := by
  refine ⟨?_, ?_, ?_⟩
  · intro row hr
    rcases Table.mem_insertReplace.mp hr with ⟨hr, -, -⟩ | rfl
    · exact hs row hr
    · exact hx
  · intro row hr
    rcases Table.mem_insertReplace.mp hr with ⟨hr, -, -⟩ | rfl
    · exact (hb row hr).trans (Int.lt_succ h)
    · exact Int.lt_succ h
  · rw [hashes_putBlock]
    apply Set.insert_subset_insert
    rintro _ ⟨row, hr, rfl⟩
    refine ⟨⟨row, hr, rfl⟩, ?_, (hb row hr).ne⟩
    rintro rfl
    exact (hb row hr).ne (Chain.height_inj (hs row hr) hx)

theorem on_of_latest_none (h : s.latestScannedBlock = none) (c : Chain) : s.On c := by
  intro row hr
  have hm : (row.height, row.blockHash) ∈ s.hashes := ⟨row, hr, rfl⟩
  rw [hashes_eq_empty h] at hm
  exact absurd hm (Set.notMem_empty _)

theorem On.of_latest (hon : s.On d) (ha : d.Agree c) {row : BlockRow}
    (h : s.latestScannedBlock = some row) (hx : c.hashAt row.height = some row.blockHash) :
    s.On c := by
  obtain ⟨hm, hmax⟩ := mem_of_latestScannedBlock h
  exact hon.of_agree ha (hon row hm) hx hmax

/-- What a call to Bitcoin Core must satisfy in a run that stays on one chain: a hash is fetched for
a height not yet stored only while the active chain holds every stored block. -/
def Links (s : Store) (c : Chain) : {β : Type} → RpcCall β → Prop
  | _, .getblockhash h => (∃ row ∈ s.bitcoinBlocks, row.height = h) ∨ s.On c
  | _, _ => True

end Store

/-- Any chain of the family may be active at any call, which may also fail. -/
def switching (F : Set Chain) : Answers := fun s _ call x => ∃ c ∈ F, c.flaky s call x

/-- The same, where new heights are fetched from chains that hold every stored block. -/
def linking (F : Set Chain) : Answers := fun s _ call x =>
  ∃ c ∈ F, c.flaky s call x ∧ ∀ y, x = .ok y → s.Links c call

/-- Calls of `scan_bitcoin`, returning or raising, each begun in a store that satisfies `P`. -/
inductive ScanRuns (rpcAnswers : Answers) (P : Store → Prop) (s₀ : Store) : Store → Prop
  | none : ScanRuns rpcAnswers P s₀ s₀
  | call {s s' : Store} {start maxBlocks : ℤ} {r : Py ScanResult} :
      ScanRuns rpcAnswers P s₀ s → P s →
        (scanBitcoin start maxBlocks).Exec (environment rpcAnswers) s r s' →
          ScanRuns rpcAnswers P s₀ s'

theorem Store.Ancestor.on {rpcAnswers : Answers} {a : ℤ} (h : s.Ancestor rpcAnswers a)
    (hrpc : rpcAnswers.Within c) (hon : s.On d) (ha : d.Agree c) : (s.rewindBitcoinScan a).On c := by
  rcases h with rfl | ⟨-, row, hm, rfl, hx⟩
  · intro row hr
    have hneg := s.below_rewind (-1) row hr
    have hpos := (Chain.hashAt_bounds (hon.rewind (-1) row hr)).1
    omega
  · apply (hon.rewind row.height).of_agree ha (hon row hm) (hrpc.hashAt hx)
    exact fun r hr => Int.lt_add_one_iff.mp (s.below_rewind _ r hr)

section Rules

variable {rpcAnswers : Answers} {P : Chain → Prop} {E : Store → Prop}

theorem scanBlock_settled {network : PyStr} {found : ℕ} {h : ℤ}
    (hE : ∀ s, (∃ c, P c ∧ s.On c) → E s) (hon : ∃ c, P c ∧ s.On c) (hset : s.Settled)
    (hbelow : s.Below h)
    (fetch : ∀ x b, s.Fetches rpcAnswers h x b → ∃ c, P c ∧ s.On c ∧ c.hashAt h = some x) :
    (scanBlock network found h).Alone (environment rpcAnswers) (fun _ => True)
      (thenOk (fun _ s' => (∃ c, P c ∧ s'.On c) ∧ s'.Settled ∧ s'.Below (h + 1)) fun _ => E) s := by
  apply scanBlock_alone trivial (fun _ => hE s hon) fun x _ _ s' => s'.bitcoinBlocks = s.bitcoinBlocks ∧
    ∀ y ∈ s'.cores, (y.height, y.blockHash) ∈ insert (h, x) s.hashes
  · exact fun x b _ => ⟨rfl, fun y hy => Or.inr (hset y hy)⟩
  · rintro x b hf done o rest s₁ - ⟨hblocks, hcores⟩
    have hon₁ : ∀ s₂ : Store, s₂.bitcoinBlocks = s.bitcoinBlocks → E s₂ := by
      intro s₂ he
      obtain ⟨c, hP, hc⟩ := hon
      refine hE s₂ ⟨c, hP, fun row hr => hc row ?_⟩
      rwa [← he]
    have hup : ∀ t hfit, ∀ y ∈ (s₁.upsertCommitment
        (o.row ⟨network, h, x, b.blockTime⟩ t) hfit).cores,
        (y.height, y.blockHash) ∈ insert (h, x) s.hashes := by
      intro t hfit y hy
      rw [Store.cores_upsertCommitment] at hy
      rcases hy with rfl | ⟨hy, -⟩
      · exact Or.inl rfl
      · exact hcores y hy
    apply recordCommitment_alone trivial
    · exact fun _ => hon₁ s₁ hblocks
    · exact fun _ _ => trivial
    · exact fun t hfit _ => ⟨hblocks, hup t hfit⟩
    · intro t hfit _ r _ _
      refine ⟨trivial, trivial, Store.confirm_bitcoinBlocks.trans hblocks, ?_⟩
      rw [Store.cores_register]
      exact hup t hfit
    · exact fun t hfit _ _ _ => hon₁ _ hblocks
  · rintro x b hf s₁ ⟨hblocks, hcores⟩
    obtain ⟨c, hP, hc, hx⟩ := fetch x b hf
    have hon₁ : s₁.On c := fun row hr => hc row (hblocks ▸ hr)
    have hbelow₁ : s₁.Below h := fun row hr => hbelow row (hblocks ▸ hr)
    obtain ⟨hon₂, hbelow₂, hhashes⟩ := hon₁.putBlock b.blockTime hx hbelow₁
    refine ⟨trivial, fun _ => hE s₁ ⟨c, hP, hon₁⟩, trivial, fun _ => ⟨⟨c, hP, hon₂⟩, ?_, hbelow₂⟩⟩
    intro y hy
    apply hhashes
    rw [Store.hashes, hblocks]
    exact hcores y hy

/-- A whole scan, if every new block is fetched from a chain that holds the stored ones. -/
theorem scanBitcoin_settled (start maxBlocks : ℤ) (hE : ∀ s, (∃ c, P c ∧ s.On c) → E s)
    (hs : E s) (hset : s.Settled)
    (fetch : ∀ (s : Store) h x b, (∃ c, P c ∧ s.On c) → s.Below h → s.Fetches rpcAnswers h x b →
      ∃ c, P c ∧ s.On c ∧ c.hashAt h = some x)
    (fresh : s.latestScannedBlock = none → ∃ c, P c ∧ s.On c)
    (current : ∀ row, s.latestScannedBlock = some row →
      rpcAnswers s (.getblockhash row.height) (.ok row.blockHash) → ∃ c, P c ∧ s.On c)
    (rewound : ∀ a, s.Ancestor rpcAnswers a → ∃ c, P c ∧ (s.rewindBitcoinScan a).On c) :
    (scanBitcoin start maxBlocks).Alone (environment rpcAnswers) (fun _ => True)
      (thenOk (fun _ s' => (∃ c, P c ∧ s'.On c) ∧ s'.Settled) fun _ => E) s := by
  apply scanBitcoin_alone trivial (fun _ => hs) fun _ next s' =>
    (∃ c, P c ∧ s'.On c) ∧ s'.Settled ∧ s'.Below next
  · intro tip _
    apply entry_alone trivial
    · intro hlatest
      refine ⟨fresh hlatest, hset, fun row hr => ?_⟩
      have hm : (row.height, row.blockHash) ∈ s.hashes := ⟨row, hr, rfl⟩
      rw [Store.hashes_eq_empty hlatest] at hm
      exact absurd hm (Set.notMem_empty _)
    · intro row hlatest _ _ hx
      refine ⟨current row hlatest hx, hset, fun r hr => ?_⟩
      exact Int.lt_add_one_iff.mpr ((Store.mem_of_latestScannedBlock hlatest).2 r hr)
    · intro row _ _ a _ hanc
      refine ⟨trivial, rewound a hanc, hset.rewind a, fun r hr => ?_⟩
      exact (s.below_rewind a r hr).trans_le (le_max_right _ _)
  · rintro tip network found next s₁ - ⟨hon, hset₁, hbelow⟩
    exact scanBlock_settled hE hon hset₁ hbelow fun x b => fetch s₁ next x b hon hbelow
  · rintro tip next r s₁ ⟨hon, hset₁, -⟩
    exact ⟨hon, hset₁⟩

end Rules

/-- A scan under switches keeps the stored blocks on one chain, whether it returns or raises. -/
theorem scanBitcoin_on {start maxBlocks : ℤ} (hon : ∃ c ∈ F, s.On c) (hset : s.Settled) :
    (scanBitcoin start maxBlocks).Alone (environment (linking F)) (fun _ => True)
      (fun _ s' => ∃ c ∈ F, s'.On c) s := by
  have hrun := @scanBitcoin_settled _ s (linking F) (· ∈ F) (fun s => ∃ c ∈ F, s.On c) start
    maxBlocks (fun s h => h) hon hset ?_ (fun _ => hon) (fun _ _ _ => hon) ?_
  · apply hrun.post
    rintro (e | r) s' h
    · exact h
    · exact h.1
  · rintro s h x b - hbelow ⟨-, ⟨c, hc, hx, hlinks⟩, -⟩
    rcases hlinks x rfl with ⟨row, hr, rfl⟩ | hon
    · exact absurd (hbelow row hr) (lt_irrefl _)
    · exact ⟨c, hc, hon, (c.flaky_within.hashAt (s := s) hx)⟩
  · rintro a -
    obtain ⟨c, hc, hon⟩ := hon
    exact ⟨c, hc, hon.rewind a⟩

theorem ScanRuns.on {s₀ : Store} (h₀ : ∃ c ∈ F, s₀.On c)
    (h : ScanRuns (linking F) Store.Settled s₀ s) : ∃ c ∈ F, s.On c := by
  induction h with
  | none => exact h₀
  | call _ hset hx ih => exact Ensures.exec (fun _ => rfl) (scanBitcoin_on ih hset) hx

/-- When every new height was fetched while the active chain held the stored blocks, a scan after
the last switch leaves only blocks and commitments of the active chain. -/
theorem switching_scan_heals (s₀ : Store) {start maxBlocks : ℤ} {r : ScanResult}
    (hF : Consistent F) (hb : s₀.bitcoinBlocks.rows = [])
    (h : ScanRuns (linking F) Store.Settled s₀ s) (hset : s.Settled) (hc : c ∈ F)
    (hx : (scanBitcoin start maxBlocks).Exec (environment c.truthful) s (.ok r) s') :
    (∀ row ∈ s'.bitcoinBlocks, c.hashAt row.height = some row.blockHash) ∧
      ∀ r ∈ s'.commitments, c.hashAt r.blockHeight = some r.blockHash := by
  have h₀ : ∃ c ∈ F, s₀.On c := by
    refine ⟨c, hc, fun row hr => ?_⟩
    rw [Table.mem_def, hb] at hr
    exact absurd hr List.not_mem_nil
  obtain ⟨d, hd, hon⟩ := h.on h₀
  have hrun := @scanBitcoin_settled _ s c.truthful (· = c) (fun _ => True) start maxBlocks
    (fun _ _ => trivial) trivial hset ?_ ?_ ?_ ?_
  · obtain ⟨⟨_, rfl, hon'⟩, hset'⟩ := Ensures.exec (fun _ => rfl) hrun hx
    refine ⟨hon', fun r hr => ?_⟩
    obtain ⟨row, hrow, he⟩ := hset' r.core ⟨r, hr, rfl⟩
    obtain ⟨hh, hhash⟩ := Prod.mk.inj he
    have hr' := hon' row hrow
    rwa [hh, hhash] at hr'
  · rintro s h x b ⟨_, rfl, hon⟩ - hf
    exact ⟨_, rfl, hon, (Chain.truthful_within _).hashAt hf.2.1⟩
  · exact fun hlatest => ⟨c, rfl, Store.on_of_latest_none hlatest c⟩
  · exact fun row hlatest hx =>
      ⟨c, rfl, hon.of_latest (hF d hd c hc) hlatest (c.truthful_within.hashAt hx)⟩
  · exact fun a hanc => ⟨c, rfl, hanc.on c.truthful_within hon (hF d hd c hc)⟩

end Runs

section Witness

attribute [local instance] conformanceKeys

/-- Bitcoin Core answers from a chain that it picks anew at each call, while that chain holds every
stored block, and fails otherwise. -/
def guarded (pick : Store → Chain) : Oracle NodeCall Exc Store := respond fun s _ call =>
  if s.On (pick s) then (pick s).answer call else raise .bitcoinRPCError "reorganised"

theorem obeys_guarded {F : Set Chain} {pick : Store → Chain} (hpick : ∀ s, pick s ∈ F) :
    Obeys (guarded pick) (environment (linking F)) := by
  apply obeys_respond
  intro s β call
  by_cases hon : s.On (pick s)
  · rw [if_pos hon]
    refine ⟨pick s, hpick s, Or.inl rfl, fun y _ => ?_⟩
    cases call with
    | getblockhash h => exact Or.inr hon
    | _ => exact trivial
  · rw [if_neg hon]
    exact ⟨pick s, hpick s, Or.inr ⟨_, rfl⟩, fun y hy => by cases hy⟩

/-- The new chain gives way to the old one once the block that they share is stored. -/
def turning (s : Store) : Chain := if s.bitcoinBlocks.rows.isEmpty then sampleNew else sampleOld

theorem turning_mem (s : Store) : turning s ∈ ({sampleOld, sampleNew} : Set Chain) := by
  unfold turning
  split_ifs
  · exact Or.inr rfl
  · exact Or.inl rfl

def sampleTurned : Store := ((scanBitcoin 0 500).eval (guarded turning) conformanceStore).2

theorem exec_of_eval {c : Chain} {s : Store} {r : ScanResult}
    (h : ((scanBitcoin 0 500).eval c.oracle s).1 = .ok r) :
    (scanBitcoin 0 500).Exec (environment c.truthful) s (.ok r)
      ((scanBitcoin 0 500).eval c.oracle s).2 :=
  h ▸ exec_eval (H := environment c.truthful) (c.obeys_oracle fun _ _ _ => rfl)
    (scanBitcoin 0 500) s

/-- The scan that was under way has stored the old chain's second block, and the next one heals it. -/
theorem switching_scan_heals_sample :
    (∃ row ∈ sampleTurned.bitcoinBlocks, sampleNew.hashAt row.height ≠ some row.blockHash) ∧
    (∀ row ∈ (rescanned sampleNew sampleTurned).bitcoinBlocks,
      sampleNew.hashAt row.height = some row.blockHash) ∧
      ∀ r ∈ (rescanned sampleNew sampleTurned).commitments,
        sampleNew.hashAt r.blockHeight = some r.blockHash :=
  ⟨by decide +kernel, switching_scan_heals (F := {sampleOld, sampleNew}) (s := sampleTurned)
    (r := ⟨"signet", 1, 2, 2, 1, some 0⟩) conformanceStore consistent_sample rfl
    (.call .none (Store.settled_iff.mpr (by decide +kernel))
      (exec_eval (obeys_guarded turning_mem) (scanBitcoin 0 500) conformanceStore))
    (Store.settled_iff.mpr (by decide +kernel)) (Or.inr rfl) (exec_of_eval (by decide +kernel))⟩

def sampleLong : Chain where
  network := "signet"
  blocks := [sampleGenesis, ("0a", ⟨some 2, [sampleTx]⟩), ("0e", ⟨some 3, []⟩)]
  hashes_nodup := by decide
  txids_nodup := by decide
  numbers_nodup := by decide

def sampleOther : Chain where
  network := "signet"
  blocks := [sampleGenesis, ("0d", ⟨some 5, []⟩), ("0f", ⟨some 6, []⟩)]
  hashes_nodup := by decide
  txids_nodup := by decide
  numbers_nodup := by decide

def switched : Oracle NodeCall Exc Store := respond fun s _ call =>
  (if s.bitcoinBlocks.rows.length ≤ 1 then sampleLong else sampleOther).answer call

theorem obeys_switched : Obeys switched (environment (switching {sampleLong, sampleOther})) := by
  apply obeys_respond
  intro s β call
  refine ⟨_, ?_, Or.inl rfl⟩
  split_ifs
  · exact Or.inl rfl
  · exact Or.inr rfl

/-- The scan that was under way stored the other chain's third block above the first chain's second
one; the scan after it returns at the tip with the stale block and its commitment still there. -/
theorem switching_scan_not_healed : Consistent {sampleLong, sampleOther} ∧ ∃ s r s' row,
    ScanRuns (switching {sampleLong, sampleOther}) (fun _ => True) conformanceStore s ∧
      (scanBitcoin 0 500).Exec (environment sampleOther.truthful) s (.ok r) s' ∧
      s'.latestScannedBlock = some row ∧ row.height = sampleOther.tip ∧
      (∃ row ∈ s'.bitcoinBlocks, sampleOther.hashAt row.height ≠ some row.blockHash) ∧
      ∃ r ∈ s'.commitments, ∀ x ∈ sampleOther.blocks, x.1 ≠ r.blockHash :=
  ⟨by rintro c (rfl | rfl) c' (rfl | rfl) <;> decide, _, ⟨"signet", 3, 2, 0, 0, none⟩, _,
    ⟨2, "0f", 6⟩, .call .none trivial (exec_eval obeys_switched (scanBitcoin 0 500) _),
    exec_of_eval (by decide +kernel), by decide +kernel, rfl, by decide +kernel,
    by decide +kernel⟩

end Witness

end HistoryAnchor

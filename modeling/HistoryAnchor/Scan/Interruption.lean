import HistoryAnchor.Scan.Publication

/-! # Interrupted scans

A scan that stops between two of its calls leaves the commitments of one block
above the stored tip. Later scans look at them again only when the stored tip
itself was replaced; otherwise they stay unless the active chain commits to the
same points.
-/

namespace HistoryAnchor

open Python Effects Prog Discovery Tables

section Runs

variable [Ed25519] {F : Set Chain} {start : ℤ} {s₀ s s' : Store} {c d : Chain}

/-- Calls of `scan_bitcoin` on one chain, with Bitcoin Core answering every call. -/
inductive Rescans (start : ℤ) (c : Chain) : Store → Store → Prop
  | one {s s' : Store} {maxBlocks : ℤ} {r : ScanResult} :
      (scanBitcoin start maxBlocks).Exec (environment c.truthful) s (.ok r) s' →
        Rescans start c s s'
  | more {s s' s'' : Store} {maxBlocks : ℤ} {r : ScanResult} : Rescans start c s s' →
      (scanBitcoin start maxBlocks).Exec (environment c.truthful) s' (.ok r) s'' →
        Rescans start c s s''

namespace Store

/-- Every commitment row and every confirmed anchor is of a block of the chain. -/
def Healed (s : Store) (c : Chain) : Prop :=
  (∀ r ∈ s.commitments, c.hashAt r.blockHeight = some r.blockHash) ∧
    ∀ a ∈ s.anchors, a.status = .confirmed → ∃ height, a.blockHeight = some height ∧
      a.blockHash = c.hashAt height ∧ c.hashAt height ≠ none

def TipReplaced (s : Store) (c : Chain) : Prop :=
  ∃ row, s.latestScannedBlock = some row ∧ c.hashAt row.height ≠ some row.blockHash

def AboveTip (s : Store) (r : Commitment) : Prop :=
  ∀ row, s.latestScannedBlock = some row → row.height < r.blockHeight

/-- Wherever a scan stops, the store follows a chain, with commitments of the next block at most
left over. -/
def Stopped (F : Set Chain) (start : ℤ) (s : Store) : Prop :=
  s.Sound ∧ ∃ d ∈ F, ∃ k L, s.Follows d start k L ∧ ∀ x ∈ L, d.Commits x ∧ x.height = k

theorem Inside.follows {k : ℤ} {done : Set Core} (hs : s.Inside d start k done ∅)
    (hlow : start ≤ k) (hhigh : k ≤ max start (d.tip + 1))
    (hdone : ∀ x ∈ done, d.Commits x ∧ x.height = k) : s.Follows d start k done := by
  refine ⟨hs.hashes, ?_, hlow, hhigh⟩
  rw [hs.cores, overlay_empty]
  ext x
  simp only [overlay, Set.mem_union, Set.mem_ofPred_eq]
  refine or_congr_right ⟨fun hx => ⟨hx, fun y hy hp => ?_⟩, And.left⟩
  have hxy := hy.1.eq_of_point (hdone x hx).1 hp
  have hk := (hdone x hx).2
  rw [← hxy] at hk
  exact absurd hy.2.2 (by omega)

/-- While rows at a point carry one payload, a scan keeps the confirmed anchors accounted for. -/
theorem keeps_sound {L : Set Core} (hF : ∀ d ∈ F, ∀ c ∈ F, d.SameTransactions c) (hc : c ∈ F)
    (hL : ∀ x ∈ L, ∃ d ∈ F, d.Commits x) : Keeps c L Sound fun _ => True where
  weaken _ _ := trivial
  rewind s a h := h.rewind a
  put s row h := h
  upsert _ _ _ _ _ _ _ _ := trivial
  absent s o ctx t hf h honly hcommits habs := by
    apply h.upsert_absent _ habs
    intro x hx hp
    rcases honly x hx hp with hx | rfl
    · obtain ⟨d, hd, hdx⟩ := hL x hx
      exact hdx.payload_eq (hF d hd c hc) hcommits hp
    · exact ⟨rfl, rfl⟩
  found s o ctx t hf h _ _ hl r hr he := ⟨trivial, h.record_found hl hr he⟩

/-- In a store that follows the chain no intermediate state loses an account either. -/
theorem keeps_sound_throughout (c : Chain) : Keeps c ∅ Sound Sound where
  weaken _ h := h
  rewind s a h := h.rewind a
  put s row h := h
  upsert s o ctx t hf h honly _ := by
    apply h.upsert_same
    exact fun x hx hp => (honly x hx hp).resolve_left (Set.notMem_empty x)
  absent s o ctx t hf h honly _ _ := by
    apply h.upsert_same
    exact fun x hx hp => (honly x hx hp).resolve_left (Set.notMem_empty x)
  found s o ctx t hf h honly _ hl r hr he := by
    have hup : (s.upsertCommitment (o.row ctx t) hf).Sound :=
      h.upsert_same fun x hx hp => (honly x hx hp).resolve_left (Set.notMem_empty x)
    exact ⟨hup.confirm hr (local_of_core_eq hl he), h.record_found hl hr he⟩

end Store

/-- A scan that starts in a store following a chain of the family may be stopped anywhere. -/
theorem stopped_of_steps {next maxBlocks : ℤ} {p : Node ScanResult} (hF : Consistent F)
    (h₀ : 0 ≤ start) (hd : d ∈ F) (hc : c ∈ F) (hs : s.Follows d start next ∅) (hsound : s.Sound)
    (h : Steps (environment c.flaky) (scanBitcoin start maxBlocks, s) (p, s')) :
    s'.Stopped F start := by
  have hstart : s.Stopped F start := ⟨hsound, d, hd, next, ∅, hs, by simp⟩
  have hrun := scanBitcoin_follows (G := Store.Stopped F start) maxBlocks
    (Store.keeps_sound_throughout c) c.flaky_within h₀ (hF d hd c hc) hs (by simp) hsound hstart
    fun s k done L' hin hlow hhigh hdone hL' hM => by
      obtain rfl : L' = ∅ := hL'.elim id id
      exact ⟨hM, c, hc, k, done, hin.follows hlow hhigh hdone, hdone⟩
  exact (Alone.steps hrun hstart h).1

theorem rescan_follows {next maxBlocks : ℤ} {L : Set Core} {r : ScanResult}
    (hk : Keeps c L Store.Sound fun _ => True) (h₀ : 0 ≤ start) (hd : d.Agree c)
    (hs : s.Follows d start next L) (hL : s.TipReplaced c → ∀ x ∈ L, next ≤ x.height)
    (hsound : s.Sound)
    (h : (scanBitcoin start maxBlocks).Exec (environment c.truthful) s (.ok r) s') :
    s'.Sound ∧ ∃ k L', s'.Follows c start k L' ∧ (L' = L ∧ s.Current c ∨ L' = ∅ ∧ s.TipReplaced c) := by
  have hrep : ∀ row, s.latestScannedBlock = some row → s.Replaced c.truthful c.tip row →
      s.TipReplaced c := by
    intro row hrow hr
    refine ⟨row, hrow, fun he => ?_⟩
    obtain ⟨h₁, h₂⟩ := Chain.hashAt_bounds he
    obtain ⟨x, hx, hne⟩ := hr h₁ h₂
    apply hne
    rw [hx, Chain.answer, he]
  have hrun := scanBitcoin_follows (G := fun _ => True) maxBlocks hk c.truthful_within h₀
    hd hs (fun row hrow hr => hL (hrep row hrow hr)) hsound trivial
    fun _ _ _ _ _ _ _ _ _ _ => trivial
  obtain ⟨hs', k, L', hleaves, hf⟩ := Ensures.exec (fun _ => rfl) hrun h
  refine ⟨hs', k, L', hf, hleaves.imp_right ?_⟩
  rintro ⟨rfl, row, hrow, hr⟩
  exact ⟨rfl, hrep row hrow hr⟩

theorem Store.Follows.not_tipReplaced {next : ℤ} {L : Set Core} (hs : s.Follows c start next L) :
    ¬ s.TipReplaced c := by
  rintro ⟨row, hrow, hne⟩
  exact hne (hs.hashAt_of_mem (Store.mem_of_latestScannedBlock hrow).1).2.2

theorem Rescans.follows {next : ℤ} {L : Set Core} (hk : Keeps c L Store.Sound fun _ => True)
    (h₀ : 0 ≤ start) (hd : d.Agree c) (hc : c.Agree c) (hs : s.Follows d start next L)
    (hL : ∀ x ∈ L, next ≤ x.height) (hsound : s.Sound) (h : Rescans start c s s') :
    s'.Sound ∧ ∃ k L', s'.Follows c start k L' ∧ (L' = L ∧ s.Current c ∨ L' = ∅ ∧ s.TipReplaced c) := by
  induction h with
  | one hx => exact rescan_follows hk h₀ hd hs (fun _ => hL) hsound hx
  | more _ hx ih =>
    obtain ⟨hsound', k, L', hf, hcase⟩ := ih
    have hk' : Keeps c L' Store.Sound fun _ => True := by
      rcases hcase with ⟨rfl, -⟩ | ⟨rfl, -⟩
      · exact hk
      · exact hk.empty
    obtain ⟨hs'', k', L'', hf', hcase'⟩ := rescan_follows hk' h₀ hc hf
      (fun hr => absurd hr hf.not_tipReplaced) hsound' hx
    rcases hcase' with ⟨rfl, -⟩ | ⟨-, hr⟩
    · exact ⟨hs'', k', L'', hf', hcase⟩
    · exact absurd hr hf.not_tipReplaced

theorem Store.Follows.mem_cores_of_left {next : ℤ} {L : Set Core} (hs : s.Follows d start next L)
    (hL : ∀ x ∈ L, d.Commits x ∧ x.height = next) {x : Core} (hx : x ∈ L) : x ∈ s.cores := by
  rw [hs.cores]
  refine Or.inr ⟨hx, fun y hy hp => ?_⟩
  have hxy := hy.1.eq_of_point (hL x hx).1 hp
  have hk := (hL x hx).2
  rw [← hxy] at hk
  exact absurd hy.2.2 (by omega)

theorem Store.Follows.aboveTip_iff {next : ℤ} {L : Set Core} (hs : s.Follows d start next L)
    (h₀ : 0 ≤ start) (hL : ∀ x ∈ L, d.Commits x ∧ x.height = next) {r : Commitment}
    (hr : r ∈ s.commitments) : s.AboveTip r ↔ r.core ∈ L := by
  constructor
  · intro habove
    have hm : r.core ∈ s.cores := ⟨r, hr, rfl⟩
    rw [hs.cores] at hm
    rcases hm with ⟨-, h₁, h₂⟩ | ⟨hm, -⟩
    · cases hlatest : s.latestScannedBlock with
      | none =>
        have := hs.next_of_latest_none h₀ hlatest
        omega
      | some row =>
        have h₃ := habove row hlatest
        have h₄ := hs.height_of_latest h₀ hlatest
        exact absurd h₂ (by rw [show r.core.height = r.blockHeight from rfl]; omega)
    · exact hm
  · intro hm row hrow
    have h₁ := hs.height_of_latest h₀ hrow
    have h₂ : r.blockHeight = next := (hL _ hm).2
    omega

/-- A store that follows the chain up to its tip is healed exactly when the chain commits to the
points left over. -/
theorem Store.Follows.healed_iff {next : ℤ} {L : Set Core} (hs : s.Follows c start next L)
    (hsound : s.Sound) (htip : c.tip < next) (hd : d.Agree c)
    (hL : ∀ x ∈ L, d.Commits x ∧ start ≤ x.height) :
    s.Healed c ↔ ∀ x ∈ L, ∃ y, c.Commits y ∧ start ≤ y.height ∧ y.point = x.point := by
  have hscanned : ∀ {y}, y ∈ c.scanned start next ↔ c.Commits y ∧ start ≤ y.height := by
    intro y
    refine ⟨fun hy => ⟨hy.1, hy.2.1⟩, fun hy => ⟨hy.1, hy.2, ?_⟩⟩
    exact (Chain.hashAt_bounds hy.1.hashAt).2.trans_lt htip
  constructor
  · rintro ⟨hrows, -⟩ x hx
    by_contra hnone
    push Not at hnone
    have hmem : x ∈ s.cores := by
      rw [hs.cores]
      exact Or.inr ⟨hx, fun y hy => hnone y (hscanned.mp hy).1 (hscanned.mp hy).2⟩
    obtain ⟨r, hr, rfl⟩ := hmem
    obtain ⟨hdx, hlow⟩ := hL _ hx
    have hbelow := hd.below hdx.hashAt (hrows r hr)
    have hcx : c.Commits r.core := hdx.of_agree le_rfl fun j hj =>
      hbelow j (Int.lt_add_one_iff.mpr hj)
    exact hnone _ hcx hlow rfl
  · intro hcover
    have hcores : ∀ r ∈ s.commitments, c.Commits r.core := by
      intro r hr
      have hm : r.core ∈ s.cores := ⟨r, hr, rfl⟩
      rw [hs.cores] at hm
      rcases hm with hm | ⟨hm, hfree⟩
      · exact hm.1
      · obtain ⟨y, hy, hlow, hp⟩ := hcover _ hm
        exact absurd hp (hfree y (hscanned.mpr ⟨hy, hlow⟩))
    refine ⟨fun r hr => (hcores r hr).hashAt, fun a ha hst => ?_⟩
    obtain ⟨r, hr, hcf, -⟩ := hsound a ha hst
    have hhash : c.hashAt r.blockHeight = some r.blockHash := (hcores r hr).hashAt
    exact ⟨r.blockHeight, hcf.2.2.2.2, hcf.2.2.2.1.trans hhash.symm, by simp [hhash]⟩

/-- After a scan was stopped anywhere and the chain replaced, scanning up to the tip heals the store
exactly when the stored tip was replaced or the new chain commits to every point that the stopped
scan left above the stored tip. -/
theorem interrupted_scan_heals {c₁ c₂ : Chain} {s₁ s₂ s₃ : Store} {B : Set Batch} {maxBlocks : ℤ}
    {p : Node ScanResult} (row : BlockRow) (hF : Consistent F)
    (htx : ∀ d ∈ F, ∀ c ∈ F, d.SameTransactions c) (h₀ : 0 ≤ start) (hs₀ : s₀.Reached B)
    (hb : s₀.bitcoinBlocks.rows = []) (hc : s₀.commitments.rows = [])
    (hconf : ∀ a ∈ s₀.anchors, a.status ≠ .confirmed)
    (hscans : s₁ = s₀ ∨ ∃ c₀, Scans F start s₀ c₀ s₁) (hc₁ : c₁ ∈ F)
    (hstop : Steps (environment c₁.flaky) (scanBitcoin start maxBlocks, s₁) (p, s₂)) (hc₂ : c₂ ∈ F)
    (hrescans : Rescans start c₂ s₂ s₃) (hrow : s₃.latestScannedBlock = some row)
    (htip : row.height = c₂.tip) :
    s₃.Healed c₂ ↔ s₂.TipReplaced c₂ ∨ ∀ r ∈ s₂.commitments, s₂.AboveTip r →
      ∃ y, c₂.Commits y ∧ start ≤ y.height ∧ y.point = r.point := by
  have hstart : s₀.InStep s₀ := by
    refine ⟨fun a ha hst => absurd hst (hconf a ha), fun r hr => ?_, rfl, rfl⟩
    rw [Table.mem_def, hc] at hr
    exact absurd hr List.not_mem_nil
  have hfollows : s₁.Sound ∧ ∃ d ∈ F, ∃ next, s₁.Follows d start next ∅ := by
    rcases hscans with rfl | ⟨c₀, h⟩
    · exact ⟨hstart.sound, c₁, hc₁, start,
        Store.follows_empty (hashes_of_rows hb) (cores_of_rows hc) c₁ start⟩
    · obtain ⟨hc₀, hstep, next, hf⟩ := h.follows (fun c _ => Store.keeps_inStep c s₀) hF h₀
        (hashes_of_rows hb) (cores_of_rows hc) hstart
      exact ⟨hstep.sound, c₀, hc₀, next, hf⟩
  obtain ⟨hsound₁, d₁, hd₁, next₁, hf₁⟩ := hfollows
  obtain ⟨hsound₂, d, hd, k, L, hf₂, hL⟩ := stopped_of_steps hF h₀ hd₁ hc₁ hf₁ hsound₁ hstop
  have hkeeps := Store.keeps_sound (L := L) htx hc₂ fun x hx => ⟨d, hd, (hL x hx).1⟩
  obtain ⟨hsound₃, k₃, L', hf₃, hcase⟩ := hrescans.follows hkeeps h₀ (hF d hd c₂ hc₂)
    (hF c₂ hc₂ c₂ hc₂) hf₂ (fun x hx => (hL x hx).2.ge) hsound₂
  have hlast : c₂.tip < k₃ := by
    have := hf₃.height_of_latest h₀ hrow
    omega
  rcases hcase with ⟨rfl, hcur⟩ | ⟨rfl, hrep⟩
  · rw [hf₃.healed_iff hsound₃ hlast (hF d hd c₂ hc₂) fun x hx =>
      ⟨(hL x hx).1, (hL x hx).2 ▸ hf₂.low⟩]
    constructor
    · intro hcover
      refine Or.inr fun r hr habove => hcover r.core ?_
      exact (hf₂.aboveTip_iff h₀ hL hr).mp habove
    · rintro (⟨row', hrow', hne⟩ | hcover)
      · exact absurd (hcur row' hrow') hne
      · intro x hx
        obtain ⟨r, hr, rfl⟩ := hf₂.mem_cores_of_left hL hx
        exact hcover r hr ((hf₂.aboveTip_iff h₀ hL hr).mpr hx)
  · have hhealed := (hf₃.healed_iff hsound₃ hlast (hF c₂ hc₂ c₂ hc₂) (by simp)).mpr (by simp)
    exact ⟨fun _ => Or.inl hrep, fun _ => hhealed⟩

end Runs

section Witness

attribute [local instance] conformanceKeys

/-- The store when the scan of the old chain is stopped before its second block is stored. -/
def sampleStopped : Store :=
  (evalFor sampleOld.oracle 15 (scanBitcoin 0 500, conformanceStore)).2

theorem steps_sampleStopped : Steps (environment sampleOld.flaky)
    (scanBitcoin 0 500, conformanceStore)
    ((evalFor sampleOld.oracle 15 (scanBitcoin 0 500, conformanceStore)).1, sampleStopped) :=
  steps_evalFor (sampleOld.obeys_oracle fun _ _ _ => Or.inl rfl) 15 _

def rescanned (c : Chain) (s : Store) : Store := ((scanBitcoin 0 500).eval c.oracle s).2

theorem rescans_rescanned {c : Chain} {s : Store}
    (h : ((scanBitcoin 0 500).eval c.oracle s).1.toOption.isSome) :
    Rescans 0 c s (rescanned c s) := by
  obtain ⟨r, hx⟩ := exec_eval_ok (H := environment c.truthful) (c.obeys_oracle fun _ _ _ => rfl) h
  exact .one hx

theorem interrupted_scan_heals_sample :
    (rescanned sampleNew sampleStopped).Healed sampleNew ↔ sampleStopped.TipReplaced sampleNew ∨
      ∀ r ∈ sampleStopped.commitments, sampleStopped.AboveTip r →
        ∃ y, sampleNew.Commits y ∧ 0 ≤ y.height ∧ y.point = r.point :=
  interrupted_scan_heals (F := {sampleOld, sampleNew}) ⟨2, "0c", 4⟩ consistent_sample
    (by rintro c (rfl | rfl) c' (rfl | rfl) <;> decide +kernel) le_rfl conformanceStore_reached rfl rfl
    (by decide +kernel) (Or.inl rfl) (Or.inl rfl) steps_sampleStopped (Or.inr rfl)
    (rescans_rescanned (by decide +kernel)) (by decide +kernel) rfl

/-- The chain without the transaction. -/
def sampleBare : Chain where
  network := "signet"
  blocks := [sampleGenesis, ("0d", ⟨some 5, []⟩)]
  hashes_nodup := by decide
  txids_nodup := by decide
  numbers_nodup := by decide

/-- The stopped scan stored a commitment of the old chain; the scan of the new one returns at the
new tip, with the row and its confirmed anchor still there. -/
theorem interrupted_scan_not_healed : Consistent {sampleOld, sampleBare} ∧ ∃ p s₂ s₃ row,
    Steps (environment sampleOld.flaky) (scanBitcoin 0 500, conformanceStore) (p, s₂) ∧
      Rescans 0 sampleBare s₂ s₃ ∧ s₃.latestScannedBlock = some row ∧
      row.height = sampleBare.tip ∧ row.blockHash = "0d" ∧
      ∃ r ∈ s₃.commitments, (∀ x ∈ sampleBare.blocks, x.1 ≠ r.blockHash) ∧
        ∃ a ∈ s₃.anchors, a.Confirms r :=
  ⟨by rintro c (rfl | rfl) c' (rfl | rfl) <;> decide, _, sampleStopped,
    rescanned sampleBare sampleStopped, ⟨1, "0d", 5⟩, steps_sampleStopped,
    rescans_rescanned (by decide +kernel), by decide +kernel, rfl, rfl, by decide +kernel⟩

end Witness

end HistoryAnchor

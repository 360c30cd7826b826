import HistoryAnchor.Scan.Follows

/-! # Exactness of the scan

Calls of `scan_bitcoin` with one start height, each on a chain that stays active
during the call. Whatever chains are active in turn, after every call the tables
hold the blocks of the active chain in an interval of heights and one row for
each accepted output of these blocks.
-/

namespace HistoryAnchor

open Python Effects Prog Discovery Tables

def Consistent (F : Set Chain) : Prop := ∀ c ∈ F, ∀ c' ∈ F, c.Agree c'

section Runs

variable [Ed25519]

/-- A call of `scan_bitcoin` while the chain is active, returning normally; calls to Bitcoin Core
may fail where the scanner goes on without an answer. -/
def ScanCall (start : ℤ) (c : Chain) (s s' : Store) : Prop :=
  ∃ maxBlocks r, (scanBitcoin start maxBlocks).Exec (environment c.flaky) s (.ok r) s'

/-- Some calls, each on a chain of the family; `c` is the chain of the last one. -/
inductive Scans (F : Set Chain) (start : ℤ) (s₀ : Store) : Chain → Store → Prop
  | one {c : Chain} {s : Store} : c ∈ F → ScanCall start c s₀ s → Scans F start s₀ c s
  | more {c c' : Chain} {s s' : Store} :
      Scans F start s₀ c s → c' ∈ F → ScanCall start c' s s' → Scans F start s₀ c' s'

/-- The tables hold the chain's blocks from the start height up to `next`, and one row for each of
their accepted outputs. -/
structure Store.Mirrors (s : Store) (c : Chain) (start next : ℤ) : Prop where
  blocks : ∀ height blockHash,
    (∃ row ∈ s.bitcoinBlocks, row.height = height ∧ row.blockHash = blockHash) ↔
      start ≤ height ∧ height < next ∧ c.hashAt height = some blockHash
  contiguous : ∀ height, start ≤ height → height < next → c.hashAt height ≠ none
  rows : ∀ r ∈ s.commitments, start ≤ r.blockHeight ∧ r.blockHeight < next ∧
    ∃ b, c.at? r.blockHeight = some (r.blockHash, b) ∧
      ∃ o ∈ b.accepted, r.core = o.core r.blockHeight r.blockHash
  outputs : ∀ height blockHash b, start ≤ height → height < next →
    c.at? height = some (blockHash, b) → ∀ o ∈ b.accepted,
      ∃ r ∈ s.commitments, r.core = o.core height blockHash ∧
        ∀ r' ∈ s.commitments, r'.point = o.point → r' = r

variable {F : Set Chain} {start next : ℤ} {s₀ s s' : Store} {c c' : Chain}

theorem Store.Follows.mirrors (hs : s.Follows c start next ∅) (h₀ : 0 ≤ start) :
    s.Mirrors c start next where
  blocks height blockHash := by
    have hmem := Set.ext_iff.mp hs.hashes (height, blockHash)
    simp only [Store.hashes, Chain.hashes, Set.mem_ofPred_eq, Prod.mk.injEq] at hmem
    exact hmem
  contiguous height h₁ h₂ := by
    have hhigh := hs.high
    obtain ⟨x, hx⟩ := Chain.exists_at? (c := c) (h₀.trans h₁) (by omega)
    simp [Chain.hashAt, hx]
  rows r hr := by
    have hm : r.core ∈ s.cores := ⟨r, hr, rfl⟩
    rw [hs.cores, overlay_empty] at hm
    obtain ⟨⟨b, hb, o, ho, he⟩, h₁, h₂⟩ := hm
    exact ⟨h₁, h₂, b, hb, o, ho, he⟩
  outputs height blockHash b h₁ h₂ hb o ho := by
    have hm : o.core height blockHash ∈ s.cores := by
      rw [hs.cores, overlay_empty]
      exact ⟨Chain.commits_of_mem hb ho, h₁, h₂⟩
    obtain ⟨r, hr, he⟩ := hm
    exact ⟨r, hr, he, fun r' hr' hp =>
      Table.eq_of_key hr' hr (hp.trans (congrArg Core.point he).symm)⟩

theorem ScanCall.follows {N M : Store → Prop} (hk : Keeps c ∅ N M) (h₀ : 0 ≤ start)
    (ha : c'.Agree c) (hs : s.Follows c' start next ∅) (hN : N s) (h : ScanCall start c s s') :
    N s' ∧ ∃ next', s'.Follows c start next' ∅ := by
  obtain ⟨maxBlocks, r, hx⟩ := h
  have hrun := scanBitcoin_follows (G := fun _ => True) maxBlocks hk c.flaky_within
    h₀ ha hs (by simp) hN trivial fun _ _ _ _ _ _ _ _ _ _ => trivial
  obtain ⟨hN', k, L', hleaves, hf⟩ := Ensures.exec (fun _ => rfl) hrun hx
  obtain rfl : L' = ∅ := hleaves.elim And.left And.left
  exact ⟨hN', k, hf⟩

/-- Whatever every scan of the family keeps holds after every call, in a store that follows the
active chain. -/
theorem Scans.follows {N M : Store → Prop} (hk : ∀ c ∈ F, Keeps c ∅ N M) (hF : Consistent F)
    (h₀ : 0 ≤ start) (hb : s₀.hashes = ∅) (hc : s₀.cores = ∅) (hN : N s₀)
    (h : Scans F start s₀ c s) : c ∈ F ∧ N s ∧ ∃ next, s.Follows c start next ∅ := by
  induction h with
  | one hm h =>
    exact ⟨hm, h.follows (hk _ hm) h₀ (hF _ hm _ hm) (Store.follows_empty hb hc _ start) hN⟩
  | more _ hm h ih =>
    obtain ⟨hc, hN', next, hf⟩ := ih
    exact ⟨hm, h.follows (hk _ hm) h₀ (hF _ hc _ hm) hf hN'⟩

theorem hashes_of_rows (h : s.bitcoinBlocks.rows = []) : s.hashes = ∅ := by
  ext x
  simp [Store.hashes, Table.mem_def, h]

theorem cores_of_rows (h : s.commitments.rows = []) : s.cores = ∅ := by
  ext x
  simp [Store.cores, Table.mem_def, h]

theorem Scans.mirrors (hF : Consistent F) (h₀ : 0 ≤ start) (hb : s₀.hashes = ∅)
    (hc : s₀.cores = ∅) (h : Scans F start s₀ c s) : ∃ next, s.Mirrors c start next := by
  obtain ⟨-, -, next, hf⟩ := h.follows (fun c _ => Keeps.trivial c ∅) hF h₀ hb hc trivial
  exact ⟨next, hf.mirrors h₀⟩

/-- After every call the tables mirror the active chain. -/
theorem scans_mirror (hF : Consistent F) (h₀ : 0 ≤ start) (hb : s₀.bitcoinBlocks.rows = [])
    (hc : s₀.commitments.rows = []) (h : Scans F start s₀ c s) : ∃ next, s.Mirrors c start next :=
  h.mirrors hF h₀ (hashes_of_rows hb) (cores_of_rows hc)

end Runs

section Sample

variable [Ed25519]

theorem ScanCall.of_eval {start maxBlocks : ℤ} {c : Chain} {s : Store}
    (h : ((scanBitcoin start maxBlocks).eval c.oracle s).1.toOption.isSome) :
    ScanCall start c s ((scanBitcoin start maxBlocks).eval c.oracle s).2 := by
  obtain ⟨r, hx⟩ := exec_eval_ok (H := environment c.flaky)
    (c.obeys_oracle fun _ _ _ => Or.inl rfl) h
  exact ⟨maxBlocks, r, hx⟩

def samplePayload : PyStr :=
  "4849535403015ca8c08e0aefbc9ecced864f9499b9f7c2b8af326257f6de2f9dd5488ba356fd"

def sampleTx : Tx := ⟨some "1f", [⟨some 0, "51"⟩, ⟨some 1, "6a26" ++ samplePayload⟩]⟩

def sampleGenesis : PyStr × Block := ("00", ⟨some 1, [⟨some "4a", [⟨some 0, "51"⟩]⟩]⟩)

def sampleOld : Chain where
  network := "signet"
  blocks := [sampleGenesis, ("0a", ⟨some 2, [sampleTx]⟩)]
  hashes_nodup := by decide
  txids_nodup := by decide
  numbers_nodup := by decide

def sampleNew : Chain where
  network := "signet"
  blocks := [sampleGenesis, ("0b", ⟨some 3, []⟩), ("0c", ⟨some 4, [sampleTx]⟩)]
  hashes_nodup := by decide
  txids_nodup := by decide
  numbers_nodup := by decide

omit [Ed25519] in
theorem consistent_sample : Consistent {sampleOld, sampleNew} := by
  rintro c (rfl | rfl) c' (rfl | rfl) <;> decide

/-- The store after scanning the old chain and then the new one. -/
def sampleScanned (s : Store) : Store :=
  ((scanBitcoin 0 500).eval sampleNew.oracle ((scanBitcoin 0 500).eval sampleOld.oracle s).2).2

end Sample

section Witness

attribute [local instance] conformanceKeys

theorem scans_mirror_sample : ∃ next, (sampleScanned .empty).Mirrors sampleNew 0 next :=
  scans_mirror consistent_sample le_rfl rfl rfl
    (.more (.one (Or.inl rfl) (.of_eval (by decide +kernel))) (Or.inr rfl)
      (.of_eval (by decide +kernel)))

end Witness

end HistoryAnchor

import HistoryAnchor.Scan.Contents

/-! # A store that follows a chain

The stored blocks are those of a chain from the start height up to the next one,
and the commitments are those of these blocks, laid over what an earlier scan has
left behind. Entering a scan of another chain rewinds to where the chains part;
each block then adds its commitments and itself.
-/

namespace HistoryAnchor

open Python Effects Prog Discovery Tables

def coresOf (outs : List Output) (height : ℤ) (blockHash : PyStr) : Set Core :=
  {x | ∃ o ∈ outs, o.core height blockHash = x}

theorem coresOf_append (outs : List Output) (o : Output) (height : ℤ) (blockHash : PyStr) :
    coresOf (outs ++ [o]) height blockHash =
      insert (o.core height blockHash) (coresOf outs height blockHash) := by
  ext x
  simp only [coresOf, List.mem_append, List.mem_singleton, Set.mem_ofPred_eq, Set.mem_insert_iff]
  constructor
  · rintro ⟨o', ho' | rfl, rfl⟩
    · exact Or.inr ⟨o', ho', rfl⟩
    · exact Or.inl rfl
  · rintro (rfl | ⟨o', ho', rfl⟩)
    · exact ⟨o, Or.inr rfl, rfl⟩
    · exact ⟨o', Or.inl ho', rfl⟩

theorem coresOf_nil (height : ℤ) (blockHash : PyStr) : coresOf [] height blockHash = ∅ := by
  ext x
  simp [coresOf]

namespace Chain

variable {c c' : Chain} {start next : ℤ}

theorem hashes_congr (h : ∀ j < next, c.at? j = c'.at? j) :
    c.hashes start next = c'.hashes start next := by
  ext x
  simp only [hashes, hashAt, Set.mem_ofPred_eq]
  refine and_congr_right fun _ => and_congr_right fun hx => ?_
  rw [h _ hx]

theorem scanned_congr (h : ∀ j < next, c.at? j = c'.at? j) :
    c.scanned start next = c'.scanned start next := by
  ext x
  simp only [scanned, Set.mem_ofPred_eq]
  constructor
  · rintro ⟨hx, h₁, h₂⟩
    exact ⟨hx.of_agree le_rfl fun j hj => h j (hj.trans_lt h₂), h₁, h₂⟩
  · rintro ⟨hx, h₁, h₂⟩
    exact ⟨hx.of_agree le_rfl fun j hj => (h j (hj.trans_lt h₂)).symm, h₁, h₂⟩

theorem hashes_self : c.hashes start start = ∅ := by
  ext x
  simp only [hashes, Set.mem_ofPred_eq, Set.mem_empty_iff_false, iff_false, not_and]
  exact fun h₁ h₂ => absurd h₂ (not_lt.mpr h₁)

theorem scanned_self : c.scanned start start = ∅ := by
  ext x
  simp only [scanned, Set.mem_ofPred_eq, Set.mem_empty_iff_false, iff_false, not_and]
  exact fun _ h₁ h₂ => absurd h₂ (not_lt.mpr h₁)

theorem scanned_succ {x : PyStr} {b : Block} (hx : c.at? next = some (x, b)) (h : start ≤ next) :
    c.scanned start (next + 1) = c.scanned start next ∪ coresOf b.accepted next x := by
  ext y
  simp only [scanned, coresOf, Set.mem_union, Set.mem_ofPred_eq]
  constructor
  · rintro ⟨hy, h₁, h₂⟩
    rcases (Int.lt_add_one_iff.mp h₂).lt_or_eq with hlt | heq
    · exact Or.inl ⟨hy, h₁, hlt⟩
    · obtain ⟨b', hb', o, ho, he⟩ := hy
      rw [heq, hx, Option.some.injEq, Prod.mk.injEq] at hb'
      exact Or.inr ⟨o, hb'.2 ▸ ho, by rw [he, hb'.1, ← heq]⟩
  · rintro (⟨hy, h₁, h₂⟩ | ⟨o, ho, rfl⟩)
    · exact ⟨hy, h₁, by omega⟩
    · exact ⟨commits_of_mem hx ho, h, Int.lt_add_one_iff.mpr le_rfl⟩

theorem hashes_succ {x : PyStr} (hx : c.hashAt next = some x) (h : start ≤ next) :
    c.hashes start (next + 1) = insert (next, x) (c.hashes start next) := by
  ext ⟨j, y⟩
  simp only [hashes, Set.mem_insert_iff, Set.mem_ofPred_eq, Prod.mk.injEq]
  constructor
  · rintro ⟨h₁, h₂, hy⟩
    rcases (Int.lt_add_one_iff.mp h₂).lt_or_eq with hlt | rfl
    · exact Or.inr ⟨h₁, hlt, hy⟩
    · rw [hx, Option.some.injEq] at hy
      exact Or.inl ⟨rfl, hy.symm⟩
  · rintro (⟨rfl, rfl⟩ | ⟨h₁, h₂, hy⟩)
    · exact ⟨h, Int.lt_add_one_iff.mpr le_rfl, hx⟩
    · exact ⟨h₁, by omega, hy⟩

theorem Agree.below (h : c.Agree c') {a : ℤ} {x : PyStr} (hx : c.hashAt a = some x)
    (hx' : c'.hashAt a = some x) : ∀ j < a + 1, c.at? j = c'.at? j := by
  intro j hj
  exact h a (by simp [hx]) (hx.trans hx'.symm) j (Int.lt_add_one_iff.mp hj)

theorem hashAt_bounds {h : ℤ} {x : PyStr} (hx : c.hashAt h = some x) : 0 ≤ h ∧ h ≤ c.tip := by
  obtain ⟨y, hy, -⟩ := Option.map_eq_some_iff.mp hx
  exact at?_bounds hy

end Chain

variable [Ed25519]

/-- The store holds the blocks in an interval of heights of the chain and their commitments, laid
over the commitments `L`. -/
structure Store.Follows (s : Store) (c : Chain) (start next : ℤ) (L : Set Core) : Prop where
  hashes : s.hashes = c.hashes start next
  cores : s.cores = overlay (c.scanned start next) L
  low : start ≤ next
  high : next ≤ max start (c.tip + 1)

/-- As `Follows`, with the commitments `done` of the next block already stored. -/
structure Store.Inside (s : Store) (c : Chain) (start next : ℤ) (done L : Set Core) : Prop where
  hashes : s.hashes = c.hashes start next
  cores : s.cores = overlay (c.scanned start next ∪ done) L

def Store.Current (s : Store) (c : Chain) : Prop :=
  ∀ row, s.latestScannedBlock = some row → c.hashAt row.height = some row.blockHash

namespace Store

variable {s : Store} {c c' : Chain} {start next : ℤ} {L : Set Core} {row : BlockRow}

theorem follows_empty (hb : s.hashes = ∅) (hc : s.cores = L) (c : Chain) (start : ℤ) :
    s.Follows c start start L where
  hashes := by rw [hb, Chain.hashes_self]
  cores := by rw [hc, Chain.scanned_self, empty_overlay]
  low := le_rfl
  high := le_max_left _ _

namespace Follows

theorem hashAt_of_mem (hs : s.Follows c start next L) (h : row ∈ s.bitcoinBlocks) :
    start ≤ row.height ∧ row.height < next ∧ c.hashAt row.height = some row.blockHash := by
  have hm : (row.height, row.blockHash) ∈ c.hashes start next := hs.hashes ▸ ⟨row, h, rfl⟩
  exact hm

theorem exists_row (hs : s.Follows c start next L) (h₀ : 0 ≤ start) {h : ℤ} (h₁ : start ≤ h)
    (h₂ : h < next) : ∃ row ∈ s.bitcoinBlocks, row.height = h := by
  have hhigh := hs.high
  obtain ⟨x, hx⟩ := Chain.exists_at? (c := c) (h₀.trans h₁) (by omega)
  have hm : (h, x.1) ∈ s.hashes := by
    rw [hs.hashes]
    exact ⟨h₁, h₂, by rw [Chain.hashAt, hx]; rfl⟩
  obtain ⟨row, hr, he⟩ := hm
  exact ⟨row, hr, (Prod.mk.inj he).1⟩

theorem height_of_latest (hs : s.Follows c start next L) (h₀ : 0 ≤ start)
    (h : s.latestScannedBlock = some row) : row.height = next - 1 := by
  obtain ⟨hm, hmax⟩ := mem_of_latestScannedBlock h
  obtain ⟨h₁, h₂, -⟩ := hs.hashAt_of_mem hm
  obtain ⟨r, hr, he⟩ := hs.exists_row h₀ (show start ≤ next - 1 by omega) (Int.sub_one_lt_of_le le_rfl)
  have := hmax r hr
  omega

theorem next_of_latest_none (hs : s.Follows c start next L) (h₀ : 0 ≤ start)
    (h : s.latestScannedBlock = none) : next = start := by
  by_contra hne
  obtain ⟨r, hr, -⟩ := hs.exists_row h₀ le_rfl (lt_of_le_of_ne hs.low (Ne.symm hne))
  have hm : (r.height, r.blockHash) ∈ s.hashes := ⟨r, hr, rfl⟩
  rw [hashes_eq_empty h] at hm
  exact hm

theorem fresh (hs : s.Follows c' start next L) (h₀ : 0 ≤ start)
    (h : s.latestScannedBlock = none) (c : Chain) : s.Follows c start start L := by
  have hn := hs.next_of_latest_none h₀ h
  refine follows_empty (hashes_eq_empty h) ?_ c start
  rw [hs.cores, hn, Chain.scanned_self, empty_overlay]

theorem current (hs : s.Follows c' start next L) (h₀ : 0 ≤ start) (ha : c'.Agree c)
    (h : s.latestScannedBlock = some row) (hx : c.hashAt row.height = some row.blockHash) :
    s.Follows c start (row.height + 1) L := by
  have hnext : row.height + 1 = next := by
    rw [hs.height_of_latest h₀ h, sub_add_cancel]
  obtain ⟨-, -, hx'⟩ := hs.hashAt_of_mem (mem_of_latestScannedBlock h).1
  have hbelow := ha.below hx' hx
  rw [hnext] at hbelow ⊢
  refine ⟨?_, ?_, hs.low, ?_⟩
  · rw [hs.hashes, Chain.hashes_congr hbelow]
  · rw [hs.cores, Chain.scanned_congr hbelow]
  · have := (Chain.hashAt_bounds hx).2
    omega

/-- Rewinding to a block that is in another chain leaves a store that follows that chain. -/
theorem rewind (hs : s.Follows c' start next L) (h₀ : 0 ≤ start) (ha : c'.Agree c)
    (hL : ∀ x ∈ L, next ≤ x.height) {a : ℤ} (han : a < next)
    (hx : a = -1 ∨ ∃ row ∈ s.bitcoinBlocks, row.height = a ∧ c.hashAt a = some row.blockHash) :
    (s.rewindBitcoinScan a).Follows c start (max start (a + 1)) ∅ := by
  have hhashes : (s.rewindBitcoinScan a).hashes = c'.hashes start (a + 1) := by
    rw [hashes_rewindBitcoinScan, hs.hashes]
    ext x
    simp only [Chain.hashes, Set.mem_ofPred_eq]
    constructor
    · rintro ⟨⟨h₁, -, h₃⟩, hle⟩
      exact ⟨h₁, by omega, h₃⟩
    · rintro ⟨h₁, h₂, h₃⟩
      exact ⟨⟨h₁, by omega, h₃⟩, by omega⟩
  have hcores : (s.rewindBitcoinScan a).cores = c'.scanned start (a + 1) := by
    rw [cores_rewindBitcoinScan, hs.cores]
    ext x
    simp only [Chain.scanned, overlay, Set.mem_union, Set.mem_ofPred_eq]
    constructor
    · rintro ⟨⟨h₁, h₂, h₃⟩ | ⟨h, -⟩, hle⟩
      · exact ⟨h₁, h₂, by omega⟩
      · exact absurd (hL x h) (by omega)
    · rintro ⟨h₁, h₂, h₃⟩
      exact ⟨Or.inl ⟨h₁, h₂, by omega⟩, by omega⟩
  rcases hx with rfl | ⟨row, hr, rfl, hx⟩
  · have hmax : max start (-1 + 1) = start := max_eq_left (by omega)
    rw [hmax]
    refine follows_empty ?_ ?_ c start
    · rw [hhashes]
      ext x
      simp only [Chain.hashes, Set.mem_ofPred_eq, Set.mem_empty_iff_false, iff_false, not_and]
      intro h₁ h₂
      omega
    · rw [hcores]
      ext x
      simp only [Chain.scanned, Set.mem_ofPred_eq, Set.mem_empty_iff_false, iff_false, not_and]
      intro _ h₁ h₂
      omega
  · obtain ⟨h₁, -, hx'⟩ := hs.hashAt_of_mem hr
    have hbelow := ha.below hx' hx
    have hmax : max start (row.height + 1) = row.height + 1 := max_eq_right (by omega)
    have htip := (Chain.hashAt_bounds hx).2
    rw [hmax]
    refine ⟨?_, ?_, by omega, by omega⟩
    · rw [hhashes, Chain.hashes_congr hbelow]
    · rw [hcores, Chain.scanned_congr hbelow, overlay_empty]

theorem inside (hs : s.Follows c start next L) : s.Inside c start next ∅ L :=
  ⟨hs.hashes, by rw [hs.cores, Set.union_empty]⟩

end Follows

namespace Inside

variable {done : Set Core} {o : Output} {ctx : BlockContext} {t : ℤ} {r : Commitment}

theorem upsert (hs : s.Inside c start next done L) (hdone : ∀ x ∈ done, c.Commits x)
    (ho : c.Commits (o.core ctx.height ctx.blockHash)) {h : (o.row ctx t).Fits} :
    (s.upsertCommitment (o.row ctx t) h).Inside c start next
      (insert (o.core ctx.height ctx.blockHash) done) L := by
  refine ⟨hs.hashes, ?_⟩
  have hcore : (o.row ctx t).core = o.core ctx.height ctx.blockHash := rfl
  have hpoint : (o.row ctx t).point = (o.core ctx.height ctx.blockHash).point := rfl
  rw [cores_upsertCommitment, hs.cores, hcore, hpoint, overlay_insert, ← Set.union_insert]
  rintro y (hy | hy) hp
  · exact hy.1.eq_of_point ho hp
  · exact (hdone y hy).eq_of_point ho hp

theorem confirm (hs : s.Inside c start next done L) : (s.confirm r).Inside c start next done L :=
  ⟨by rw [hashes_confirm, hs.hashes], by rw [cores_confirm, hs.cores]⟩

theorem register (hs : s.Inside c start next done L) :
    (s.register r).Inside c start next done L :=
  ⟨by rw [hashes_register, hs.hashes], by rw [cores_register, hs.cores]⟩

theorem putBlock {x : PyStr} {b : Block}
    (hs : s.Inside c start next (coresOf b.accepted next x) L) (hx : c.at? next = some (x, b))
    (hl : start ≤ next) (time : ℤ) :
    (s.putBlock ⟨next, x, time⟩).Follows c start (next + 1) L := by
  have hhash : c.hashAt next = some x := by rw [Chain.hashAt, hx]; rfl
  refine ⟨?_, ?_, by omega, ?_⟩
  · rw [hashes_putBlock, hs.hashes, Chain.hashes_succ hhash hl]
    congr 1
    ext ⟨j, y⟩
    simp only [Chain.hashes, Set.mem_ofPred_eq, ne_eq, and_iff_left_iff_imp]
    rintro ⟨-, h₂, hy⟩
    refine ⟨?_, by omega⟩
    rintro rfl
    exact absurd (Chain.height_inj hy hhash) (by omega)
  · rw [Chain.scanned_succ hx hl]
    exact hs.cores
  · have := (Chain.at?_bounds hx).2
    omega

theorem at_point (hs : s.Inside c start next done L) (hdone : ∀ x ∈ done, c.Commits x)
    (ho : c.Commits (o.core ctx.height ctx.blockHash)) {x : Core} (hx : x ∈ s.cores)
    (hp : x.point = o.point) : x ∈ L ∨ x = o.core ctx.height ctx.blockHash := by
  rw [hs.cores] at hx
  rcases hx with (hx | hx) | hx
  · exact Or.inr (hx.1.eq_of_point ho hp)
  · exact Or.inr ((hdone x hx).eq_of_point ho hp)
  · exact Or.inl hx.1

end Inside

end Store

/-- The rows at the point of an output say what the output says or are in `L`. -/
def Store.Only (s : Store) (L : Set Core) (o : Output) (ctx : BlockContext) : Prop :=
  ∀ x ∈ s.cores, x.point = o.point → x ∈ L ∨ x = o.core ctx.height ctx.blockHash

/-- A scan of the chain keeps `N` from one commitment to the next, and `M` in between. -/
structure Keeps (c : Chain) (L : Set Core) (N M : Store → Prop) : Prop where
  weaken : ∀ s, N s → M s
  rewind : ∀ s a, N s → N (s.rewindBitcoinScan a)
  put : ∀ s row, N s → N (s.putBlock row)
  upsert : ∀ s o ctx t h, N s → s.Only L o ctx → c.Commits (o.core ctx.height ctx.blockHash) →
    M (s.upsertCommitment (o.row ctx t) h)
  absent : ∀ s o ctx t h, N s → s.Only L o ctx → c.Commits (o.core ctx.height ctx.blockHash) →
    ¬ s.Local o.payload.manifestHash o.payloadHex → N (s.upsertCommitment (o.row ctx t) h)
  found : ∀ s o ctx t h, N s → s.Only L o ctx → c.Commits (o.core ctx.height ctx.blockHash) →
    s.Local o.payload.manifestHash o.payloadHex →
    ∀ r ∈ (s.upsertCommitment (o.row ctx t) h).commitments,
      r.core = o.core ctx.height ctx.blockHash →
      M ((s.upsertCommitment (o.row ctx t) h).confirm r) ∧
        N ((s.upsertCommitment (o.row ctx t) h).register r)

theorem Keeps.empty {c : Chain} {L : Set Core} {N M : Store → Prop} (h : Keeps c L N M) :
    Keeps c ∅ N M := by
  have hlift : ∀ (s : Store) o ctx, s.Only ∅ o ctx → s.Only L o ctx := fun s o ctx hs x hx hp =>
    (hs x hx hp).imp_left fun hx => absurd hx (Set.notMem_empty x)
  refine ⟨h.weaken, h.rewind, h.put, ?_, ?_, ?_⟩
  · exact fun s o ctx t hf hN ho => h.upsert s o ctx t hf hN (hlift s o ctx ho)
  · exact fun s o ctx t hf hN ho => h.absent s o ctx t hf hN (hlift s o ctx ho)
  · exact fun s o ctx t hf hN ho => h.found s o ctx t hf hN (hlift s o ctx ho)

theorem Keeps.trivial (c : Chain) (L : Set Core) : Keeps c L (fun _ => True) fun _ => True := by
  constructor <;> simp

section Scan

variable {c c' : Chain} {rpcAnswers : Answers} {G N M : Store → Prop} {s : Store} {L : Set Core}
  {start next : ℤ}

theorem scanBlock_follows (hk : Keeps c L N M) (hrpc : rpcAnswers.Within c) {network : PyStr}
    {found : ℕ} (hs : s.Follows c start next L) (hN : N s)
    (hG : ∀ s done, s.Inside c start next done L → (∀ x ∈ done, c.Commits x ∧ x.height = next) →
      M s → G s)
    (hput : ∀ s, s.Follows c start (next + 1) L → M s → G s) :
    (scanBlock network found next).Alone (environment rpcAnswers) G
      (thenOk (fun _ s' => s'.Follows c start (next + 1) L ∧ N s') fun _ _ => True) s := by
  have hdone : ∀ {x b outs}, c.at? next = some (x, b) → (∀ o ∈ outs, o ∈ b.accepted) →
      ∀ y ∈ coresOf outs next x, c.Commits y ∧ y.height = next := by
    rintro x b outs hx hsub y ⟨o, ho, rfl⟩
    exact ⟨Chain.commits_of_mem hx (hsub o ho), rfl⟩
  apply scanBlock_alone (hG s ∅ hs.inside (by simp) (hk.weaken s hN)) (fun _ => trivial)
    fun x b outs s => s.Inside c start next (coresOf outs next x) L ∧ N s
  · intro x b _
    rw [coresOf_nil]
    exact ⟨hs.inside, hN⟩
  · rintro x b hf outs o rest s' hb ⟨hin, hN'⟩
    have hx := hrpc.at? hf
    have hsub : ∀ o' ∈ outs, o' ∈ b.accepted := fun o' ho' => hb ▸ List.mem_append_left _ ho'
    have ho : o ∈ b.accepted := hb ▸ List.mem_append_right _ List.mem_cons_self
    have hsub' : ∀ o' ∈ outs ++ [o], o' ∈ b.accepted := by
      intro o' ho'
      rcases List.mem_append.mp ho' with h | h
      · exact hsub o' h
      · exact List.mem_singleton.mp h ▸ ho
    set ctx : BlockContext := ⟨network, next, x, b.blockTime⟩ with hctx
    have hcommits : c.Commits (o.core ctx.height ctx.blockHash) := Chain.commits_of_mem hx ho
    have honly : s'.Only L o ctx := fun y hy hp =>
      hin.at_point (fun z hz => (hdone hx hsub z hz).1) hcommits hy hp
    have hup : ∀ t h, (s'.upsertCommitment (o.row ctx t) h).Inside c start next
        (coresOf (outs ++ [o]) next x) L := by
      intro t h
      rw [coresOf_append]
      exact hin.upsert (fun z hz => (hdone hx hsub z hz).1) hcommits
    have hG' : ∀ s, s.Inside c start next (coresOf (outs ++ [o]) next x) L → M s → G s :=
      fun s hi hM => hG s _ hi (hdone hx hsub') hM
    apply recordCommitment_alone (hG s' _ hin (hdone hx hsub) (hk.weaken s' hN'))
    · exact fun _ => trivial
    · intro t h
      exact hG' _ (hup t h) (hk.upsert s' o ctx t h hN' honly hcommits)
    · intro t h habs
      exact ⟨hup t h, hk.absent s' o ctx t h hN' honly hcommits habs⟩
    · intro t h hl r hr he
      obtain ⟨hM, hN''⟩ := hk.found s' o ctx t h hN' honly hcommits hl r hr he
      exact ⟨hG' _ (hup t h).confirm hM, hG' _ (hup t h).register (hk.weaken _ hN''),
        (hup t h).register, hN''⟩
    · exact fun _ _ _ _ _ => trivial
  · rintro x b hf s' ⟨hin, hN'⟩
    have hx := hrpc.at? hf
    have hfollows := hin.putBlock hx hs.low b.blockTime
    have hN'' := hk.put s' ⟨next, x, b.blockTime⟩ hN'
    exact ⟨hG s' _ hin (hdone hx fun _ => id) (hk.weaken s' hN'), fun _ => trivial,
      hput _ hfollows (hk.weaken _ hN''), fun _ => ⟨hfollows, hN''⟩⟩

/-- What an earlier scan left behind stays while the stored tip is current, and goes when Bitcoin
Core shows it replaced. -/
def Store.Leaves (s : Store) (rpcAnswers : Answers) (c : Chain) (L L' : Set Core) : Prop :=
  L' = L ∧ s.Current c ∨
    L' = ∅ ∧ ∃ row, s.latestScannedBlock = some row ∧ s.Replaced rpcAnswers c.tip row

theorem entry_follows (hk : Keeps c L N M) (hrpc : rpcAnswers.Within c) (h₀ : 0 ≤ start)
    (ha : c'.Agree c) (hs : s.Follows c' start next L)
    (hL : ∀ row, s.latestScannedBlock = some row → s.Replaced rpcAnswers c.tip row →
      ∀ x ∈ L, next ≤ x.height) (hN : N s) (hG : G s)
    (hG' : ∀ s k, s.Follows c start k ∅ → M s → G s) :
    (entry start c.tip).Alone (environment rpcAnswers) G
      (thenOk (fun x s' => N s' ∧ ∃ L', s.Leaves rpcAnswers c L L' ∧ s'.Follows c start x.2 L')
        fun _ _ => True) s := by
  apply entry_alone hG
  · intro hlatest
    rw [thenOk_ok, max_eq_right h₀]
    refine ⟨hN, L, Or.inl ⟨rfl, ?_⟩, hs.fresh h₀ hlatest c⟩
    intro row hrow
    rw [hlatest] at hrow
    cases hrow
  · intro row hlatest _ _ hx
    refine ⟨hN, L, Or.inl ⟨rfl, ?_⟩, hs.current h₀ ha hlatest (hrpc.hashAt hx)⟩
    intro row' hrow
    rw [hlatest] at hrow
    cases hrow
    exact hrpc.hashAt hx
  · intro row hlatest hrep a han hanc
    have hheight := hs.height_of_latest h₀ hlatest
    have hlow := (hs.hashAt_of_mem (Store.mem_of_latestScannedBlock hlatest).1).1
    have hfollows : (s.rewindBitcoinScan a).Follows c start (max start (a + 1)) ∅ := by
      apply hs.rewind h₀ ha (hL row hlatest hrep) (by omega)
      rcases hanc with rfl | ⟨-, row', hm, rfl, hx⟩
      · exact Or.inl rfl
      · exact Or.inr ⟨row', hm, rfl, hrpc.hashAt hx⟩
    have hN' := hk.rewind s a hN
    exact ⟨hG' _ _ hfollows (hk.weaken _ hN'), hN', ∅, Or.inr ⟨rfl, row, hlatest, hrep⟩,
      hfollows⟩

theorem scanBitcoin_follows (maxBlocks : ℤ) (hk : Keeps c L N M) (hrpc : rpcAnswers.Within c)
    (h₀ : 0 ≤ start) (ha : c'.Agree c) (hs : s.Follows c' start next L)
    (hL : ∀ row, s.latestScannedBlock = some row → s.Replaced rpcAnswers c.tip row →
      ∀ x ∈ L, next ≤ x.height) (hN : N s) (hG : G s)
    (hin : ∀ s k done L', s.Inside c start k done L' → start ≤ k → k ≤ max start (c.tip + 1) →
      (∀ x ∈ done, c.Commits x ∧ x.height = k) → (L' = L ∨ L' = ∅) → M s → G s) :
    (scanBitcoin start maxBlocks).Alone (environment rpcAnswers) G
      (thenOk (fun _ s' => N s' ∧ ∃ k L', s.Leaves rpcAnswers c L L' ∧ s'.Follows c start k L')
        fun _ _ => True) s := by
  have hG' : ∀ s k L', s.Follows c start k L' → (L' = L ∨ L' = ∅) → M s → G s :=
    fun s k L' hf hL' hM => hin s k ∅ L' hf.inside hf.low hf.high (by simp) hL' hM
  have hcases : ∀ {L'}, s.Leaves rpcAnswers c L L' → L' = L ∨ L' = ∅ := fun h =>
    h.imp And.left And.left
  apply scanBitcoin_alone hG (fun _ => trivial) fun tip k s' => tip = c.tip ∧ N s' ∧
    ∃ L', s.Leaves rpcAnswers c L L' ∧ s'.Follows c start k L'
  · intro tip htip
    obtain rfl := hrpc.tip htip
    apply (entry_follows hk hrpc h₀ ha hs hL hN hG fun s k hf => hG' s k ∅ hf (Or.inr rfl)).post
    rintro (e | x) s' h
    · exact h
    · exact ⟨rfl, h⟩
  · rintro tip network found k s' _ ⟨rfl, hN', L', hleaves, hf⟩
    have hk' : Keeps c L' N M := by
      rcases hcases hleaves with rfl | rfl
      · exact hk
      · exact hk.empty
    apply (scanBlock_follows hk' hrpc hf hN' ?_ ?_).post
    · rintro (e | n) s'' h
      · exact h
      · exact ⟨rfl, h.2, L', hleaves, h.1⟩
    · exact fun s'' done hi hd => hin s'' k done L' hi hf.low hf.high hd (hcases hleaves)
    · exact fun s'' hf' => hG' s'' _ L' hf' (hcases hleaves)
  · rintro tip k r s' ⟨-, hN', L', hleaves, hf⟩
    exact ⟨hN', k, L', hleaves, hf⟩

end Scan

end HistoryAnchor

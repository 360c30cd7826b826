import HistoryAnchor.Node.Discovery

/-! # The commitments of a chain

What a scan looks for, stated about the chain alone: the outputs whose scripts
carry an accepted payload, each at its point. In one chain a point has one
commitment; chains whose transactions are identified by their txids agree on what
a point commits to.
-/

namespace HistoryAnchor

open Python Discovery

structure Output where
  point : Point
  payloadHex : PyStr
  payload : Bitcoin.AnchorPayload

def Tx.accepted (t : Tx) : List Output :=
  match t.txid with
  | none => []
  | some txid => t.vout.zipIdx.filterMap fun (o, i) =>
      (acceptedPayload o.scriptHex).map fun (payloadHex, payload) =>
        ⟨(txid, o.number i), payloadHex, payload⟩

def Block.accepted (b : Block) : List Output := b.tx.flatMap Tx.accepted

structure Core where
  point : Point
  batchId : PyStr
  payloadHex : PyStr
  height : ℤ
  blockHash : PyStr

def Commitment.core (c : Commitment) : Core :=
  ⟨c.point, c.batchId, c.payloadHex, c.blockHeight, c.blockHash⟩

def Output.core (o : Output) (height : ℤ) (blockHash : PyStr) : Core :=
  ⟨o.point, o.payload.manifestHash, o.payloadHex, height, blockHash⟩

def Chain.Commits (c : Chain) (x : Core) : Prop :=
  ∃ b, c.at? x.height = some (x.blockHash, b) ∧ ∃ o ∈ b.accepted, x = o.core x.height x.blockHash

/-- Transactions of the two chains with one txid have the same outputs. -/
def Chain.SameTransactions (c c' : Chain) : Prop :=
  ∀ b ∈ c.blocks, ∀ t ∈ b.2.tx, ∀ b' ∈ c'.blocks, ∀ t' ∈ b'.2.tx, t.txid ≠ none →
    t.txid = t'.txid → t.vout = t'.vout

instance (c c' : Chain) : Decidable (c.SameTransactions c') :=
  inferInstanceAs (Decidable (∀ _ ∈ _, _))

theorem acceptedPayload_some {scriptHex payloadHex : PyStr} {payload : Bitcoin.AnchorPayload}
    (h : acceptedPayload scriptHex = some (payloadHex, payload)) :
    Bitcoin.extractPayloadFromScript scriptHex = some payloadHex ∧ payloadHex ≠ [] ∧
      Bitcoin.decodeAnchorPayload payloadHex = .ok payload := by
  unfold acceptedPayload at h
  cases he : Bitcoin.extractPayloadFromScript scriptHex with
  | none => simp [he] at h
  | some ph =>
    simp only [he] at h
    split_ifs at h with hne
    cases hd : Bitcoin.decodeAnchorPayload ph with
    | error e => simp [hd] at h
    | ok p =>
      simp only [hd, Option.some.injEq, Prod.mk.injEq] at h
      obtain ⟨rfl, rfl⟩ := h
      exact ⟨rfl, hne, hd⟩

theorem Tx.mem_accepted {t : Tx} {o : Output} (h : o ∈ t.accepted) :
    ∃ txid out i, t.txid = some txid ∧ (out, i) ∈ t.vout.zipIdx ∧
      acceptedPayload out.scriptHex = some (o.payloadHex, o.payload) ∧
      o.point = (txid, out.number i) := by
  unfold Tx.accepted at h
  cases ht : t.txid with
  | none => simp [ht] at h
  | some txid =>
    simp only [ht, List.mem_filterMap, Option.map_eq_some_iff] at h
    obtain ⟨⟨out, i⟩, hm, ⟨ph, p⟩, ha, rfl⟩ := h
    exact ⟨txid, out, i, rfl, hm, ha, rfl⟩

theorem Block.mem_accepted {b : Block} {o : Output} :
    o ∈ b.accepted ↔ ∃ t ∈ b.tx, o ∈ t.accepted := List.mem_flatMap

theorem Output.decode {b : Block} {o : Output} (h : o ∈ b.accepted) :
    Bitcoin.decodeAnchorPayload o.payloadHex = .ok o.payload := by
  obtain ⟨t, -, ho⟩ := Block.mem_accepted.mp h
  obtain ⟨_, _, _, -, -, ha, -⟩ := Tx.mem_accepted ho
  exact (acceptedPayload_some ha).2.2

theorem eq_of_filterMap_nodup {α β : Type} {l : List α} {f : α → Option β}
    (h : (l.filterMap f).Nodup) {a b : α} {v : β} (ha : a ∈ l) (hb : b ∈ l) (hfa : f a = some v)
    (hfb : f b = some v) : a = b := by
  rw [List.Nodup, List.pairwise_filterMap, List.pairwise_iff_getElem] at h
  obtain ⟨i, hi, rfl⟩ := List.getElem_of_mem ha
  obtain ⟨j, hj, rfl⟩ := List.getElem_of_mem hb
  rcases Nat.lt_trichotomy i j with hlt | rfl | hgt
  · exact absurd rfl (h i j hi hj hlt v hfa v hfb)
  · rfl
  · exact absurd rfl (h j i hj hi hgt v hfb v hfa)

namespace Chain

variable {c c' : Chain}

theorem mem_of_at? {h : ℤ} {x : PyStr × Block} (hx : c.at? h = some x) : x ∈ c.blocks := by
  unfold at? at hx
  split_ifs at hx
  exact List.mem_of_getElem? hx

theorem at?_bounds {h : ℤ} {x : PyStr × Block} (hx : c.at? h = some x) : 0 ≤ h ∧ h ≤ c.tip := by
  unfold at? at hx
  split_ifs at hx with hneg
  obtain ⟨hlt, -⟩ := List.getElem?_eq_some_iff.mp hx
  unfold tip
  omega

theorem exists_at? {h : ℤ} (h₀ : 0 ≤ h) (h₁ : h ≤ c.tip) : ∃ x, c.at? h = some x := by
  unfold tip at h₁
  have hlt : h.toNat < c.blocks.length := by omega
  exact ⟨_, by rw [at?, if_neg (by omega), List.getElem?_eq_getElem hlt]⟩

theorem block?_of_at? {h : ℤ} {x : PyStr} {b : Block} (hx : c.at? h = some (x, b)) :
    c.block? x = some b := by
  have hm := mem_of_at? hx
  unfold block?
  cases hl : c.blocks.lookup x with
  | none =>
    have hne := List.lookup_eq_none_iff.mp hl _ hm
    simp at hne
  | some b' =>
    obtain ⟨l₁, l₂, he, -⟩ := List.lookup_eq_some_iff.mp hl
    have hm' : (x, b') ∈ c.blocks := by rw [he]; simp
    rw [(Prod.mk.inj (List.inj_on_of_nodup_map c.hashes_nodup hm hm' rfl)).2]

theorem height_inj {h h' : ℤ} {x : PyStr} (hx : c.hashAt h = some x) (hx' : c.hashAt h' = some x) :
    h = h' := by
  simp only [hashAt, Option.map_eq_some_iff] at hx hx'
  obtain ⟨⟨_, b⟩, hb, rfl⟩ := hx
  obtain ⟨⟨_, b'⟩, hb', rfl⟩ := hx'
  have h₁ := (at?_bounds hb).1
  have h₂ := (at?_bounds hb').1
  simp only [at?, if_neg (not_lt.mpr h₁), if_neg (not_lt.mpr h₂)] at hb hb'
  obtain ⟨hl, he⟩ := List.getElem?_eq_some_iff.mp hb
  obtain ⟨hl', he'⟩ := List.getElem?_eq_some_iff.mp hb'
  have hnd := c.hashes_nodup
  have hl₁ : h.toNat < (c.blocks.map Prod.fst).length := by simpa using hl
  have hl₂ : h'.toNat < (c.blocks.map Prod.fst).length := by simpa using hl'
  have key : h.toNat = h'.toNat :=
    (@List.Nodup.getElem_inj_iff _ _ hnd _ hl₁ _ hl₂).mp (by simp [he, he'])
  omega

theorem tx_eq_of_txid {h h' : ℤ} {x x' : PyStr × Block} {t t' : Tx} (hx : c.at? h = some x)
    (hx' : c.at? h' = some x') (ht : t ∈ x.2.tx) (ht' : t' ∈ x'.2.tx) {txid : PyStr}
    (hi : t.txid = some txid) (hi' : t'.txid = some txid) : h = h' ∧ t = t' := by
  have hnd := c.txids_nodup
  rw [List.filterMap_flatMap, List.nodup_flatMap] at hnd
  obtain ⟨hin, hdis⟩ := hnd
  have h₁ := (at?_bounds hx).1
  have h₂ := (at?_bounds hx').1
  simp only [at?, if_neg (not_lt.mpr h₁), if_neg (not_lt.mpr h₂)] at hx hx'
  obtain ⟨hl, he⟩ := List.getElem?_eq_some_iff.mp hx
  obtain ⟨hl', he'⟩ := List.getElem?_eq_some_iff.mp hx'
  have hm : txid ∈ x.2.tx.filterMap Tx.txid := List.mem_filterMap.mpr ⟨t, ht, hi⟩
  have hm' : txid ∈ x'.2.tx.filterMap Tx.txid := List.mem_filterMap.mpr ⟨t', ht', hi'⟩
  rw [List.pairwise_iff_getElem] at hdis
  have heq : h.toNat = h'.toNat := by
    rcases Nat.lt_trichotomy h.toNat h'.toNat with hlt | heq | hgt
    · have hd := hdis _ _ hl hl' hlt
      rw [he, he'] at hd
      exact absurd hm' (List.disjoint_left.mp hd hm)
    · exact heq
    · have hd := hdis _ _ hl' hl hgt
      rw [he, he'] at hd
      exact absurd hm (List.disjoint_left.mp hd hm')
  refine ⟨by omega, ?_⟩
  have hxx : x = x' := by
    rw [← he, ← he']
    simp only [heq]
  subst hxx
  exact eq_of_filterMap_nodup (hin x (by rw [← he]; exact List.getElem_mem hl)) ht ht' hi hi'

theorem Commits.eq_of_point {x y : Core} (hx : c.Commits x) (hy : c.Commits y)
    (h : x.point = y.point) : x = y := by
  obtain ⟨b, hb, o, ho, ex⟩ := hx
  obtain ⟨b', hb', o', ho', ey⟩ := hy
  obtain ⟨t, ht, hot⟩ := Block.mem_accepted.mp ho
  obtain ⟨t', ht', hot'⟩ := Block.mem_accepted.mp ho'
  obtain ⟨txid, out, i, hi, hm, ha, hp⟩ := Tx.mem_accepted hot
  obtain ⟨txid', out', i', hi', hm', ha', hp'⟩ := Tx.mem_accepted hot'
  have hpt : (txid, out.number i) = (txid', out'.number i') := by
    rw [← hp, ← hp', show o.point = x.point by rw [ex]; rfl, h,
      show y.point = o'.point by rw [ey]; rfl]
  obtain ⟨rfl, hn⟩ := Prod.mk.inj hpt
  obtain ⟨hh, rfl⟩ := tx_eq_of_txid hb hb' ht ht' hi hi'
  have hout : (out, i) = (out', i') :=
    List.inj_on_of_nodup_map (c.numbers_nodup _ (mem_of_at? hb) t ht) hm hm' hn
  obtain ⟨rfl, rfl⟩ := Prod.mk.inj hout
  rw [ha, Option.some.injEq, Prod.mk.injEq] at ha'
  rw [hh] at hb
  rw [hb, Option.some.injEq, Prod.mk.injEq] at hb'
  rw [ex, ey, Output.core, Output.core, hp, hp', ha'.1, ha'.2, hh, hb'.1]

theorem Commits.payload_eq (hs : c.SameTransactions c') {x y : Core} (hx : c.Commits x)
    (hy : c'.Commits y) (h : x.point = y.point) :
    x.payloadHex = y.payloadHex ∧ x.batchId = y.batchId := by
  obtain ⟨b, hb, o, ho, ex⟩ := hx
  obtain ⟨b', hb', o', ho', ey⟩ := hy
  obtain ⟨t, ht, hot⟩ := Block.mem_accepted.mp ho
  obtain ⟨t', ht', hot'⟩ := Block.mem_accepted.mp ho'
  obtain ⟨txid, out, i, hi, hm, ha, hp⟩ := Tx.mem_accepted hot
  obtain ⟨txid', out', i', hi', hm', ha', hp'⟩ := Tx.mem_accepted hot'
  have hpt : (txid, out.number i) = (txid', out'.number i') := by
    rw [← hp, ← hp', show o.point = x.point by rw [ex]; rfl, h,
      show y.point = o'.point by rw [ey]; rfl]
  obtain ⟨rfl, hn⟩ := Prod.mk.inj hpt
  have hv := hs _ (mem_of_at? hb) t ht _ (mem_of_at? hb') t' ht' (by simp [hi]) (by rw [hi, hi'])
  rw [← hv] at hm'
  have hout : (out, i) = (out', i') :=
    List.inj_on_of_nodup_map (c.numbers_nodup _ (mem_of_at? hb) t ht) hm hm' hn
  obtain ⟨rfl, rfl⟩ := Prod.mk.inj hout
  rw [ha, Option.some.injEq, Prod.mk.injEq] at ha'
  rw [ex, ey]
  exact ⟨ha'.1, by rw [Output.core, Output.core, ha'.2]⟩

theorem Commits.hashAt {x : Core} (hx : c.Commits x) : c.hashAt x.height = some x.blockHash := by
  obtain ⟨b, hb, -⟩ := hx
  rw [Chain.hashAt, hb]
  rfl

theorem Commits.decode {x : Core} (hx : c.Commits x) :
    ∃ p, Bitcoin.decodeAnchorPayload x.payloadHex = .ok p ∧ x.batchId = p.manifestHash := by
  obtain ⟨b, -, o, ho, ex⟩ := hx
  rw [ex]
  exact ⟨_, Output.decode ho, rfl⟩

theorem Commits.of_agree {x : Core} {k : ℤ} (hx : c.Commits x) (hk : x.height ≤ k)
    (h : ∀ j ≤ k, c.at? j = c'.at? j) : c'.Commits x := by
  obtain ⟨b, hb, ho⟩ := hx
  exact ⟨b, by rw [← h _ hk, hb], ho⟩

theorem commits_of_mem {b : Block} {o : Output} {h : ℤ} {x : PyStr}
    (hb : c.at? h = some (x, b)) (ho : o ∈ b.accepted) : c.Commits (o.core h x) :=
  ⟨b, hb, o, ho, rfl⟩

end Chain

end HistoryAnchor

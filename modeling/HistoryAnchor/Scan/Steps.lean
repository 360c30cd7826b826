import HistoryAnchor.Scan.Outputs

/-! # The steps of a scan

What each call does when the node runs alone, and from that what storing one
commitment does: the row is upserted, and if its batch is local the anchor at its
point is confirmed from the row and the row is marked resolved.
-/

namespace HistoryAnchor

open Python Effects Prog Discovery Tables

variable [Ed25519] {α β : Type}

def Store.Local (s : Store) (batchId payloadHex : PyStr) : Prop :=
  ∃ b ∈ s.batches, b.batchId = batchId ∧ b.payloadHex = payloadHex

def Store.Crowded (s : Store) (batchId : PyStr) : Prop :=
  10000 < (s.commitments.rows.filter fun c => c.batchId = batchId).length

abbrev Output.row (o : Output) (b : BlockContext) (discoveredAt : ℤ) : Commitment :=
  b.row o.point o.payloadHex o.payload discoveredAt

section Calls

variable {rpcAnswers : Answers} {R G : Store → Store → Prop} {s : Store}

theorem storage_ensures {c : StorageCall β} {Q : Py β → Store → Prop} :
    (storage c).Ensures (environment rpcAnswers) R G Q s ↔
      ∀ s₁, R s s₁ → G s₁ (s₁.run c).2 ∧ Q (s₁.run c).1 (s₁.run c).2 := by
  rw [storage, ensures_perform]
  constructor
  · intro h s₁ hr
    exact h s₁ hr _ _ rfl
  · intro h s₁ hr x s' hx
    have he : x = (s₁.run c).1 := congrArg Prod.fst hx
    have hs : s' = (s₁.run c).2 := congrArg Prod.snd hx
    rw [he, hs]
    exact h s₁ hr

theorem now_ensures {Q : Py ℤ → Store → Prop} :
    now.Ensures (environment rpcAnswers) R G Q s ↔
      ∀ s₁, R s s₁ → ∀ t, G s₁ s₁ ∧ Q (.ok t) s₁ := by
  rw [now, ensures_perform]
  constructor
  · intro h s₁ hr t
    exact h s₁ hr _ s₁ ⟨⟨t, rfl⟩, rfl⟩
  · rintro h s₁ hr x s' ⟨⟨t, rfl⟩, rfl⟩
    exact h _ hr t

theorem rpc_ensures {c : RpcCall β} {Q : Py β → Store → Prop} :
    (rpc c).Ensures (environment rpcAnswers) R G Q s ↔
      ∀ s₁, R s s₁ → ∀ x, rpcAnswers s₁ c x → G s₁ s₁ ∧ Q x s₁ := by
  rw [rpc, ensures_perform]
  constructor
  · intro h s₁ hr x hx
    exact h s₁ hr x s₁ ⟨hx, rfl⟩
  · rintro h s₁ hr x s' ⟨hx, rfl⟩
    exact h _ hr x hx

end Calls

namespace Store

variable {s : Store}

theorem find?_batch_any {batchId payloadHex : PyStr} :
    ((s.batches.find? batchId).any fun b => b.payloadHex = payloadHex) = true ↔
      s.Local batchId payloadHex := by
  simp only [Option.any_eq_true, decide_eq_true_eq, Table.find?_eq_some, Local, and_assoc]

theorem mem_upsertCommitment {c r : Commitment} {h : c.Fits} :
    r ∈ (s.upsertCommitment c h).commitments ↔ (r ∈ s.commitments ∧ r.point ≠ c.point) ∨
      (∃ old ∈ s.commitments, old.point = c.point ∧ r = mergeCommitment old c) ∨
        (r = c ∧ ∀ old ∈ s.commitments, old.point ≠ c.point) :=
  @Table.mem_upsert _ _ _ _ s.commitments mergeCommitment (fun _ _ => rfl) c r

theorem core_of_mem_upsertCommitment {c r : Commitment} {h : c.Fits}
    (hr : r ∈ (s.upsertCommitment c h).commitments) (hp : r.point = c.point) : r.core = c.core := by
  rcases mem_upsertCommitment.mp hr with ⟨-, hne⟩ | ⟨old, -, -, rfl⟩ | ⟨rfl, -⟩
  · exact absurd hp hne
  · rfl
  · rfl

theorem exists_mem_upsertCommitment (c : Commitment) (h : c.Fits) :
    ∃ r ∈ (s.upsertCommitment c h).commitments, r.point = c.point := by
  by_cases hex : ∃ old ∈ s.commitments, old.point = c.point
  · obtain ⟨old, ho, hp⟩ := hex
    exact ⟨_, mem_upsertCommitment.mpr (Or.inr (Or.inl ⟨old, ho, hp, rfl⟩)), rfl⟩
  · push Not at hex
    exact ⟨c, mem_upsertCommitment.mpr (Or.inr (Or.inr ⟨rfl, hex⟩)), rfl⟩

theorem mem_upsertCommitment_of_ne {c r : Commitment} {h : c.Fits} (hp : r.point ≠ c.point) :
    r ∈ (s.upsertCommitment c h).commitments ↔ r ∈ s.commitments := by
  refine ⟨fun hr => ?_, fun hr => mem_upsertCommitment.mpr (Or.inl ⟨hr, hp⟩)⟩
  rcases mem_upsertCommitment.mp hr with ⟨hr, -⟩ | ⟨old, -, -, rfl⟩ | ⟨rfl, -⟩
  · exact hr
  · exact absurd rfl hp
  · exact absurd rfl hp

theorem filter_point_eq {p : Point} {c : Commitment} (hc : c ∈ s.commitments) (hp : c.point = p) :
    (s.commitments.rows.filter fun r => r.batchId = c.batchId).filter (fun r => r.point = p) =
      [c] := by
  have hnd := s.commitments.nodup
  obtain ⟨l₁, l₂, hl⟩ := List.append_of_mem (show c ∈ s.commitments.rows from hc)
  rw [hl, List.map_append, List.map_cons, List.nodup_append, List.nodup_cons] at hnd
  obtain ⟨-, ⟨h₂, -⟩, h₁⟩ := hnd
  have hnil : ∀ l : List Commitment, (∀ r ∈ l, r.point ≠ c.point) →
      l.filter (fun r => decide (r.point = p) && decide (r.batchId = c.batchId)) = [] := by
    intro l h
    rw [List.filter_eq_nil_iff]
    intro r hr
    simp only [Bool.and_eq_true, decide_eq_true_eq, not_and]
    exact fun he => absurd (he.trans hp.symm) (h r hr)
  rw [List.filter_filter, hl, List.filter_append, List.filter_cons_of_pos (by simp [hp]),
    hnil l₁ fun r hr => h₁ _ (List.mem_map_of_mem hr) _ List.mem_cons_self,
    hnil l₂ fun r hr he => h₂ (he ▸ List.mem_map_of_mem hr)]
  rfl

theorem mem_of_selectCommitments {u : Bool} {i : Option PyStr} {n : ℤ} {c : Commitment}
    (h : c ∈ s.selectCommitments u i n) : c ∈ s.commitments := by
  unfold selectCommitments limited at h
  split_ifs at h
  · exact (List.mem_filter.mp h).1
  · exact (List.mem_filter.mp (List.mem_of_mem_take h)).1

theorem batchId_of_selectCommitments {u : Bool} {i : PyStr} {n : ℤ} {c : Commitment}
    (h : c ∈ s.selectCommitments u (some i) n) : c.batchId = i := by
  have hf : c ∈ s.commitments.rows.filter fun c =>
      (!u || !c.resolved) && (some i).all (c.batchId = ·) := by
    unfold selectCommitments limited at h
    split_ifs at h
    · exact h
    · exact List.mem_of_mem_take h
  simpa using (Bool.and_eq_true_iff.mp (List.mem_filter.mp hf).2).2

theorem selectCommitments_batch (i : PyStr) : s.selectCommitments false (some i) 10000 =
    (s.commitments.rows.filter fun r => r.batchId = i).take 10000 := by
  rw [selectCommitments, limited, if_neg (by omega)]
  simp only [Bool.not_false, Bool.true_or, Bool.true_and, Option.all_some]
  rfl

/-- The row is among those that the query of `register_scanned_anchor` returns. -/
def Listed (s : Store) (c : Commitment) : Prop :=
  c ∈ s.selectCommitments false (some c.batchId) 10000

instance (s : Store) (c : Commitment) : Decidable (s.Listed c) :=
  inferInstanceAs (Decidable (_ ∈ _))

theorem matches_of_listed {p : Point} {c : Commitment} (hc : c ∈ s.commitments) (hp : c.point = p) :
    (s.selectCommitments false (some c.batchId) 10000).filter (fun r => r.point = p) =
      if s.Listed c then [c] else [] := by
  have hsub := (List.take_sublist 10000
    (s.commitments.rows.filter fun r => r.batchId = c.batchId)).filter fun r => r.point = p
  rw [filter_point_eq hc hp, ← selectCommitments_batch] at hsub
  have hmem : c ∈ (s.selectCommitments false (some c.batchId) 10000).filter
      (fun r => r.point = p) ↔ s.Listed c := by
    rw [List.mem_filter, decide_eq_true_eq]
    exact and_iff_left hp
  rcases List.sublist_singleton.mp hsub with h | h
  · rw [h] at hmem
    rw [h, if_neg fun hl => absurd (hmem.mpr hl) List.not_mem_nil]
  · rw [h] at hmem
    rw [h, if_pos (hmem.mp List.mem_cons_self)]

theorem crowded_of_not_listed {c : Commitment} (hc : c ∈ s.commitments) (h : ¬ s.Listed c) :
    s.Crowded c.batchId := by
  by_contra hn
  apply h
  rw [Listed, selectCommitments_batch, List.take_of_length_le (by simpa [Crowded] using hn)]
  exact List.mem_filter.mpr ⟨hc, decide_eq_true rfl⟩

end Store

namespace Store

variable {s : Store} {c : Commitment}

def confirm (s : Store) (c : Commitment) : Store :=
  if h : ∃ b ∈ s.batches, b.batchId = c.batchId then s.upsertAnchor (Service.confirmedAnchor c) h
  else s

/-- The anchor is confirmed from the row and the row is marked resolved. -/
def register (s : Store) (c : Commitment) : Store := (s.confirm c).markCommitmentResolved c.point

theorem Local.exists_batch {batchId payloadHex : PyStr} (h : s.Local batchId payloadHex) :
    ∃ b ∈ s.batches, b.batchId = batchId := by
  obtain ⟨b, hb, hi, -⟩ := h
  exact ⟨b, hb, hi⟩

theorem addAnchor_confirmed (hc : c ∈ s.commitments) (h : ∃ b ∈ s.batches, b.batchId = c.batchId) :
    s.addAnchor (Service.confirmedAnchor c) =
      (.ok (s.anchors.find? (Service.confirmedAnchor c).point).isNone, s.confirm c) := by
  obtain ⟨h₁, h₂, h₃, -⟩ := s.commitment_fits c hc
  have hfits : sqliteInt (Service.confirmedAnchor c).vout ∧
      sqliteInt (Service.confirmedAnchor c).anchoredAt ∧
      sqliteInt ((Service.confirmedAnchor c).blockHeight.getD 0) := ⟨h₁, h₃, h₂⟩
  rw [confirm, dif_pos h, addAnchor, if_pos hfits]
  exact dif_pos h

end Store

section Record

variable {rpcAnswers : Answers} {G : Store → Prop} {s : Store} {b : BlockContext} {o : Output}

/-- The anchor is confirmed from the row at the point, if the batch is local and the row is listed;
otherwise the call raises. -/
theorem registerScannedAnchor_exact {batchId : PyStr} {p : Point} {Q : Py Anchor → Store → Prop}
    (hG : G s)
    (found : ∀ c ∈ s.commitments, c.point = p → c.batchId = batchId →
      s.Local c.batchId c.payloadHex → s.Listed c →
      G (s.confirm c) ∧ G (s.register c) ∧ Q (.ok (Service.confirmedAnchor c)) (s.register c))
    (failed : (¬ ∃ c ∈ s.commitments, c.point = p ∧ c.batchId = batchId ∧
      s.Local c.batchId c.payloadHex ∧ s.Listed c) → ∀ e, Q (.error e) s) :
    (Service.registerScannedAnchor batchId p).Alone (environment rpcAnswers) G Q s := by
  simp only [Service.registerScannedAnchor, bind_eq, ensures_bind, storage_ensures, forall_eq',
    Store.run, thenOk_ok]
  refine ⟨hG, ?_⟩
  cases hfind : s.batches.find? batchId with
  | none =>
    apply failed
    rintro ⟨c, -, -, rfl, ⟨b, hb, hi, -⟩, -⟩
    exact absurd hi (Table.find?_eq_none.mp hfind b hb)
  | some batch =>
    obtain ⟨hb, hbi⟩ := Table.find?_eq_some.mp hfind
    simp only [ensures_bind, storage_ensures, forall_eq', Store.run,
      Store.query_ok (by decide : sqliteInt 10000), thenOk_ok]
    refine ⟨hG, ?_⟩
    by_cases hex : ∃ c ∈ s.commitments, c.point = p ∧ c.batchId = batchId
    · obtain ⟨c, hc, hp, rfl⟩ := hex
      have hunique : ∀ c' ∈ s.commitments, c'.point = p → c' = c := fun c' hc' hp' =>
        Table.eq_of_key hc' hc (hp'.trans hp.symm)
      rw [Store.matches_of_listed hc hp]
      by_cases hlisted : s.Listed c
      · rw [if_pos hlisted]
        by_cases hph : c.payloadHex = batch.payloadHex
        · have hl : s.Local c.batchId c.payloadHex := ⟨batch, hb, hbi, hph.symm⟩
          have hanchor : ({ Service.confirmedAnchor c with batchId := c.batchId, txid := p.1 } :
              Anchor) = Service.confirmedAnchor c := by rw [← hp]; rfl
          have hadd := Store.addAnchor_confirmed hc hl.exists_batch
          simp only [hph, ne_eq, not_true_eq_false, if_false, ensures_bind, storage_ensures,
            forall_eq', Store.run, hanchor, hadd, thenOk_ok, pure_eq, List.forM_cons,
            List.forM_nil, bind_eq, ensures_ret]
          exact found c hc hp rfl hl hlisted
        · simp only [ne_eq, hph, not_false_eq_true, if_true, Service.serviceError, raise_bind,
            ensures_raise]
          apply failed
          rintro ⟨c', hc', hp', -, ⟨b, hb', hi, hbp⟩, -⟩
          rw [hunique c' hc' hp'] at hi hbp
          rw [Table.eq_of_key hb' hb (hi.trans hbi.symm)] at hbp
          exact absurd hbp.symm hph
      · rw [if_neg hlisted]
        apply failed
        rintro ⟨c', hc', hp', -, -, hlisted'⟩
        exact absurd (hunique c' hc' hp' ▸ hlisted') hlisted
    · have hm : (s.selectCommitments false (some batchId) 10000).filter
          (fun c => c.point = p) = [] := by
        rw [List.filter_eq_nil_iff]
        intro c hc
        rw [decide_eq_true_eq]
        intro hp
        exact hex ⟨c, Store.mem_of_selectCommitments hc, hp, Store.batchId_of_selectCommitments hc⟩
      rw [hm]
      apply failed
      rintro ⟨c, hc, hp, hi, -⟩
      exact hex ⟨c, hc, hp, hi⟩

theorem registerScannedAnchor_alone {batchId : PyStr} {p : Point} {Q : Py Anchor → Store → Prop}
    (hG : G s)
    (found : ∀ c ∈ s.commitments, c.point = p → c.batchId = batchId →
      s.Local c.batchId c.payloadHex →
      G (s.confirm c) ∧ G (s.register c) ∧ Q (.ok (Service.confirmedAnchor c)) (s.register c))
    (failed : (∀ c ∈ s.commitments, c.point = p → c.batchId = batchId →
      s.Local c.batchId c.payloadHex → s.Crowded batchId) → ∀ e, Q (.error e) s) :
    (Service.registerScannedAnchor batchId p).Alone (environment rpcAnswers) G Q s := by
  apply registerScannedAnchor_exact hG
  · exact fun c hc hp hi hl _ => found c hc hp hi hl
  · intro hnone
    apply failed
    rintro c hc hp rfl hl
    exact Store.crowded_of_not_listed hc fun hlisted => hnone ⟨c, hc, hp, rfl, hl, hlisted⟩

theorem recordCommitment_alone {Q : Py Unit → Store → Prop} (hG : G s)
    (overflow : ∀ e, Q (.error e) s)
    (here : ∀ t h, G (s.upsertCommitment (o.row b t) h))
    (absent : ∀ t h, ¬ s.Local o.payload.manifestHash o.payloadHex →
      Q (.ok ()) (s.upsertCommitment (o.row b t) h))
    (found : ∀ t h, s.Local o.payload.manifestHash o.payloadHex →
      ∀ c ∈ (s.upsertCommitment (o.row b t) h).commitments,
        c.core = o.core b.height b.blockHash →
        G ((s.upsertCommitment (o.row b t) h).confirm c) ∧
        G ((s.upsertCommitment (o.row b t) h).register c) ∧
        Q (.ok ()) ((s.upsertCommitment (o.row b t) h).register c))
    (lost : ∀ t h, s.Local o.payload.manifestHash o.payloadHex →
      (s.upsertCommitment (o.row b t) h).Crowded o.payload.manifestHash →
      ∀ e, Q (.error e) (s.upsertCommitment (o.row b t) h)) :
    (recordCommitment b o.point o.payloadHex o.payload).Alone (environment rpcAnswers) G Q s := by
  simp only [recordCommitment, bind_eq, ensures_bind, storage_ensures, now_ensures, forall_eq',
    Store.run, thenOk_ok]
  intro t
  refine ⟨hG, ?_⟩
  by_cases hfit : (o.row b t).Fits
  · have hadd : s.addCommitment (o.row b t) = (.ok (s.commitments.find?
        (o.row b t).point).isNone, s.upsertCommitment (o.row b t) hfit) := dif_pos hfit
    simp only [hadd, thenOk_ok, ensures_bind, storage_ensures, forall_eq', Store.run]
    refine ⟨here t hfit, here t hfit, ?_⟩
    have hbatches : (s.upsertCommitment (o.row b t) hfit).batches = s.batches := rfl
    rw [hbatches]
    by_cases hl : s.Local o.payload.manifestHash o.payloadHex
    · rw [if_pos (Store.find?_batch_any.mpr hl)]
      simp only [ensures_bind]
      obtain ⟨r, hr, hp⟩ := Store.exists_mem_upsertCommitment (s := s) (o.row b t) hfit
      have hcore : r.core = o.core b.height b.blockHash := Store.core_of_mem_upsertCommitment hr hp
      apply registerScannedAnchor_alone (here t hfit)
      · intro c hc hpc _ _
        exact found t hfit hl c hc (Store.core_of_mem_upsertCommitment hc hpc)
      · intro hcr e
        refine lost t hfit hl (hcr r hr hp (congrArg Core.batchId hcore) ?_) e
        rwa [show r.batchId = _ from congrArg Core.batchId hcore,
          show r.payloadHex = _ from congrArg Core.payloadHex hcore]
    · rw [if_neg fun h => hl (Store.find?_batch_any.mp h)]
      exact absent t hfit hl
  · have hadd : s.addCommitment (o.row b t) = (.error Store.overflow, s) := dif_neg hfit
    simp only [hadd]
    exact ⟨hG, overflow _⟩

end Record

end HistoryAnchor

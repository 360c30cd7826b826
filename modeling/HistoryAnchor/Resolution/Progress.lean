import HistoryAnchor.Queues.Rounds
import HistoryAnchor.Resolution.Returns

/-! # How long a commitment waits

Each call of the resolver examines the oldest unresolved rows, and a row whose package
nobody serves stays among them. The unresolved rows are a queue, and the calls
are rounds of it.
-/

namespace HistoryAnchor

open Python Effects Prog Discovery Tables Queues

section Waiting

variable [Ed25519] {s t : Store}

/-- A call of the resolver with what its peers answer. -/
structure ResolveCall where
  answers : PeerAnswers
  peers : List PyStr
  limit : ℤ

namespace ResolveCall

/-- One of the peers serves a package of the batch on every request. -/
def Available (call : ResolveCall) (batchId : PyStr) : Prop :=
  ∃ peer ∈ call.peers, ∀ n, (acceptable batchId (call.answers n peer batchId)).isSome

def Unavailable (call : ResolveCall) (batchId : PyStr) : Prop :=
  ∀ peer ∈ call.peers, ∀ n, acceptable batchId (call.answers n peer batchId) = none

def round (call : ResolveCall) : Round RowKey where
  limit := call.limit.toNat
  offered k := call.Available k.2
  refused k := call.Unavailable k.2

def served (call : ResolveCall) (s : Store) : List (Commitment × Option Json) :=
  servings call.answers call.peers (s.examined call.limit) 0

def Returns (call : ResolveCall) (rpcAnswers : Answers) (s t : Store) : Prop :=
  ∃ result n, (resolveCommitments call.peers call.limit).Exec (answered rpcAnswers call.answers)
    (s, 0) (.ok result) (t, n)

variable {call : ResolveCall} {batchId : PyStr} {n : ℕ}

theorem Available.fetched (h : call.Available batchId) (n : ℕ) :
    (fetched call.answers batchId call.peers n).1.isSome := by
  obtain ⟨peer, hpeer, hall⟩ := h
  obtain ⟨i, hi⟩ := List.mem_iff_getElem?.mp hpeer
  exact fetched_isSome_iff.mpr ⟨i, peer, hi, hall (n + i)⟩

theorem Unavailable.fetched (h : call.Unavailable batchId) (n : ℕ) :
    (fetched call.answers batchId call.peers n).1 = none := by
  rw [← Option.not_isSome_iff_eq_none, fetched_isSome_iff]
  rintro ⟨i, peer, hi, hsome⟩
  rw [h peer (List.mem_of_getElem? hi) (n + i)] at hsome
  cases hsome

end ResolveCall

/-- Calls that return, each with the store that it finds. -/
inductive ResolveRuns (rpcAnswers : Answers) : List (Store × ResolveCall) → Store → Store → Prop
  | nil (s : Store) : ResolveRuns rpcAnswers [] s s
  | cons {call : ResolveCall} {steps : List (Store × ResolveCall)} {s t u : Store} :
      call.Returns rpcAnswers s t → ResolveRuns rpcAnswers steps t u →
        ResolveRuns rpcAnswers ((s, call) :: steps) s u

def Store.pending (s : Store) : List RowKey :=
  (s.commitments.rows.filter fun c => !c.resolved).map Commitment.key

theorem Store.map_key_examined {limit : ℤ} (h : 0 ≤ limit) :
    (s.examined limit).map Commitment.key = s.pending.take limit.toNat := by
  rw [examined, selectCommitments, limited, if_neg (not_lt.mpr h), pending, List.map_take]
  simp only [Bool.not_true, Bool.false_or, Option.all_none, Bool.and_true]

open scoped Classical in
theorem Store.pending_eq_filter : s.pending = s.keys.filter (·.1 ∈ s.unresolvedPoints) := by
  rw [pending, keys, List.filter_map]
  congr 1
  apply List.filter_congr
  intro r hr
  rw [eq_comm, Bool.eq_iff_iff]
  simp only [Function.comp_apply, decide_eq_true_eq, Bool.not_eq_true']
  constructor
  · rintro ⟨r', hr', hp, hres⟩
    rwa [Table.eq_of_key hr' hr hp] at hres
  · exact fun hres => ⟨r, hr, rfl, hres⟩

open scoped Classical in
theorem Store.Resolves.pending {P : Set Point} (h : s.Resolves t P) (hk : t.keys = s.keys) :
    t.pending = s.pending.filter (·.1 ∉ P) := by
  rw [Store.pending_eq_filter, Store.pending_eq_filter, hk, h.unresolved, List.filter_filter]
  apply List.filter_congr
  intro k _
  rw [Bool.eq_iff_iff]
  simp only [Set.mem_sdiff, decide_eq_true_eq, Bool.and_eq_true]
  exact and_comm

theorem mem_of_mem_servings {answers : PeerAnswers} {peers : List PyStr} {rows : List Commitment}
    {n : ℕ} {c : Commitment} {package : Option Json}
    (h : (c, package) ∈ servings answers peers rows n) :
    c ∈ rows ∧ ∃ m, (fetched answers c.batchId peers m).1 = package := by
  induction rows generalizing n with
  | nil => exact absurd h List.not_mem_nil
  | cons c' rows ih =>
    rcases List.mem_cons.mp h with he | h
    · obtain ⟨rfl, rfl⟩ := Prod.mk.inj he
      exact ⟨List.mem_cons_self, n, rfl⟩
    · exact (ih h).imp_left (List.mem_cons_of_mem c')

theorem exists_mem_servings (answers : PeerAnswers) (peers : List PyStr) {rows : List Commitment}
    {c : Commitment} (hc : c ∈ rows) (n : ℕ) :
    ∃ m, (c, (fetched answers c.batchId peers m).1) ∈ servings answers peers rows n := by
  induction rows generalizing n with
  | nil => exact absurd hc List.not_mem_nil
  | cons c' rows ih =>
    rcases List.mem_cons.mp hc with rfl | hc
    · exact ⟨n, List.mem_cons_self⟩
    · obtain ⟨m, hm⟩ := ih hc (fetched answers c'.batchId peers n).2
      exact ⟨m, List.mem_cons_of_mem _ hm⟩

namespace ResolveCall

variable {call : ResolveCall} {rpcAnswers : Answers}

theorem Returns.resolves (h : call.Returns rpcAnswers s t) :
    s.Resolves t (servedPoints (call.served s)) ∧ t.keys = s.keys := by
  obtain ⟨result, n, hx⟩ := h
  have hrun : ∀ result', Except.ok result = (.ok result' : Py ResolveResult) →
      s.Resolves t (servedPoints (call.served s)) ∧ t.keys = s.keys :=
    Ensures.exec (fun _ => rfl) (resolveCommitments_answered
      (Q := fun r t => ∀ result', r = .ok result' →
        s.Resolves t (servedPoints (call.served s)) ∧ t.keys = s.keys)
      (fun _ _ _ _ ht hk _ _ => ⟨ht, hk⟩) fun _ _ _ _ he => nomatch he) hx
  exact hrun result rfl

open scoped Classical in
theorem keeps (hlimit : 1 ≤ call.limit) :
    call.round.Keeps s.pending (·.1 ∉ servedPoints (call.served s)) := by
  have hexamined := s.map_key_examined (show 0 ≤ call.limit by omega)
  constructor
  · intro k hk hoffered
    rw [round, ← hexamined] at hk
    obtain ⟨c, hc, rfl⟩ := List.mem_map.mp hk
    obtain ⟨m, hm⟩ := exists_mem_servings call.answers call.peers hc 0
    have hbatch : call.Available c.batchId := hoffered
    obtain ⟨package, hp⟩ := Option.isSome_iff_exists.mp (hbatch.fetched m)
    rw [hp] at hm
    exact decide_eq_false (not_not.mpr ⟨c, package, hm, rfl⟩)
  · intro k hk hserved
    obtain ⟨c, package, hm, hp⟩ := not_not.mp (of_decide_eq_false hserved)
    obtain ⟨hc, m, hfetched⟩ := mem_of_mem_servings hm
    -- Two pending keys with one point are one key.
    have hkey : c.key = k := by
      obtain ⟨r, hr, rfl⟩ := List.mem_map.mp hk
      have hrows : r ∈ s.commitments := (List.mem_filter.mp hr).1
      rw [Table.eq_of_key (Store.mem_of_selectCommitments hc) hrows hp]
    subst hkey
    refine ⟨?_, fun hrefused => ?_⟩
    · rw [round, ← hexamined]
      exact List.mem_map_of_mem hc
    · have hbatch : call.Unavailable c.batchId := hrefused
      rw [hbatch.fetched m] at hfetched
      cases hfetched

end ResolveCall

section Runs

variable {rpcAnswers : Answers} {steps : List (Store × ResolveCall)} {c : Commitment}

theorem ResolveRuns.queue (h : ResolveRuns rpcAnswers steps s t)
    (hlimit : ∀ x ∈ steps, 1 ≤ x.2.limit) :
    Runs (steps.map (Prod.map Store.pending ResolveCall.round)) s.pending t.pending ∧ t.keys = s.keys ∧
      s.resolvedPoints ⊆ t.resolvedPoints ∧
        s.unresolvedPoints ⊆ t.resolvedPoints ∪ t.unresolvedPoints := by
  induction h with
  | nil s => exact ⟨.nil _, rfl, subset_rfl, Set.subset_union_right⟩
  | @cons call steps s t u hcall _ ih =>
    obtain ⟨hfirst, hrest⟩ := List.forall_mem_cons.mp hlimit
    obtain ⟨hresolves, hkeys⟩ := hcall.resolves
    obtain ⟨hruns, hk, hkept, hopen⟩ := ih hrest
    rw [hresolves.pending hkeys] at hruns
    refine ⟨.cons (ResolveCall.keeps hfirst) hruns, hk.trans hkeys, hresolves.kept.trans hkept, ?_⟩
    intro p hp
    by_cases hserved : p ∈ servedPoints (call.served s)
    · exact Or.inl (hkept (hresolves.confirmed hserved))
    · apply hopen
      rw [hresolves.unresolved]
      exact ⟨hp, hserved⟩

theorem Store.mem_pending (hc : c ∈ s.commitments) (hopen : c.resolved = false) :
    c.key ∈ s.pending := by
  apply List.mem_map_of_mem
  exact List.mem_filter.mpr ⟨hc, by rw [hopen]; rfl⟩

theorem Store.resolved_iff (hc : c.key ∈ s.keys) :
    (∃ row ∈ s.commitments, row.point = c.point ∧ row.resolved) ↔ c.key ∉ s.pending := by
  classical
  simp only [Store.pending_eq_filter, List.mem_filter, decide_eq_true_eq]
  constructor
  · rintro ⟨r, hr, hp, hres⟩ ⟨-, r', hr', hp', hres'⟩
    rw [Table.eq_of_key hr hr' (hp.trans hp'.symm), hres'] at hres
    cases hres
  · intro hnot
    obtain ⟨r, hr, hk⟩ := List.mem_map.mp hc
    have hp : r.point = c.point := (Prod.mk.inj hk).1
    refine ⟨r, hr, hp, ?_⟩
    by_contra hres
    exact hnot ⟨hc, r, hr, hp, eq_false_of_ne_true hres⟩

/-- In a run of as many calls as there are unresolved rows at first, in each of which a commitment is
served: it is resolved in the end if each call examines more rows than it finds unresolved before the
commitment and without a peer that serves their package. It is resolved exactly if some call examines
more rows than it finds unresolved before the commitment, and it is not if as many rows wait there at
first as a call examines and no call of the run serves them. -/
theorem resolved_after_calls (hc : c ∈ s.commitments) (hopen : c.resolved = false)
    (hruns : ResolveRuns rpcAnswers steps s t)
    (hcount : steps.length = (s.commitments.rows.filter fun r => !r.resolved).length)
    (hserved : ∀ x ∈ steps, 1 ≤ x.2.limit ∧ x.2.Available c.batchId) :
    ((∀ x ∈ steps,
        (countBefore x.1.pending c.key (fun k => ¬ x.2.Available k.2) : ℤ) < x.2.limit) →
      (∃ row ∈ t.commitments, row.point = c.point ∧ row.resolved) ∧
        ∃ a ∈ t.anchors, a.point = c.point ∧ a.status = .confirmed) ∧
    ((∃ row ∈ t.commitments, row.point = c.point ∧ row.resolved) ↔
      ∃ x ∈ steps, ((before x.1.pending c.key).length : ℤ) < x.2.limit) ∧
    ((∀ x ∈ steps, x.2.limit ≤
        countBefore s.pending c.key fun k => ∀ y ∈ steps, y.2.Unavailable k.2) →
      ∃ row ∈ t.commitments, row.point = c.point ∧ row.resolved = false) := by
  classical
  obtain ⟨hqueue, hkeys, -, hleft⟩ := hruns.queue fun x hx => (hserved x hx).1
  have hkey : c.key ∈ t.keys := hkeys ▸ List.mem_map_of_mem hc
  have hoffered : ∀ x ∈ steps.map (Prod.map Store.pending ResolveCall.round), x.2.offered c.key :=
    List.forall_mem_map.mpr fun x hx => (hserved x hx).2
  refine ⟨?_, ?_, ?_⟩
  · intro hfew
    have hgone : c.key ∉ t.pending := by
      apply hqueue.leaves ?_ hoffered
      · exact List.forall_mem_map.mpr fun x hx => Int.lt_toNat.mpr (hfew x hx)
      · rw [List.length_map, Store.pending, List.length_map, hcount]
    apply (hleft ⟨c, hc, rfl, hopen⟩).resolve_right
    intro hstill
    apply hgone
    rw [Store.pending_eq_filter]
    exact List.mem_filter.mpr ⟨hkey, decide_eq_true hstill⟩
  · rw [Store.resolved_iff hkey, hqueue.mem_iff (Store.mem_pending hc hopen) hoffered,
      List.forall_mem_map]
    push Not
    apply exists_congr
    intro x
    exact and_congr_right fun _ => Int.lt_toNat
  · intro hmany
    have hstays : c.key ∈ t.pending := by
      apply hqueue.stays (Store.mem_pending hc hopen)
      simp only [List.forall_mem_map]
      exact fun x hx => Int.toNat_le.mpr (hmany x hx)
    obtain ⟨row, hrow, he⟩ := List.mem_map.mp hstays
    obtain ⟨hrow, hres⟩ := List.mem_filter.mp hrow
    exact ⟨row, hrow, (Prod.mk.inj he).1, by simpa using hres⟩

end Runs

section Existence

variable (chain : Chain)

theorem ResolveCall.exists_returns {call : ResolveCall} (hlimit : sqliteInt call.limit)
    (h : Agreed s.view (call.served s)) :
    ∃ t, call.Returns chain.truthful s t := by
  obtain ⟨r, ⟨t, n⟩, hx⟩ :=
    exists_exec_resolveCommitments s chain call.answers call.peers call.limit
  have hok : ∃ result, r = .ok result := Ensures.exec (fun _ => rfl)
    (resolveCommitments_answered (Q := fun r _ => ∃ result, r = .ok result)
      (fun _ _ result _ _ _ => ⟨result, rfl⟩) fun hnot => absurd ⟨hlimit, h⟩ hnot) hx
  obtain ⟨result, rfl⟩ := hok
  exact ⟨t, result, n, hx⟩

omit [Ed25519] in
theorem agreed_of_unserved {v : View} {served : List (Commitment × Option Json)}
    (h : ∀ x ∈ served, x.2 = none) : Agreed v served := by
  induction served with
  | nil => trivial
  | cons x served ih =>
    obtain ⟨hx, hserved⟩ := List.forall_mem_cons.mp h
    obtain ⟨c, package⟩ := x
    obtain rfl : package = none := hx
    exact ih hserved

/-- Calls that examine only rows which nobody serves return, and leave the queue as it is. -/
theorem exists_idle_runs (calls : List ResolveCall)
    (h : ∀ call ∈ calls, 1 ≤ call.limit ∧ sqliteInt call.limit ∧
      ∀ k ∈ s.pending.take call.limit.toNat, call.Unavailable k.2) :
    ∃ steps t, steps.map Prod.snd = calls ∧ ResolveRuns chain.truthful steps s t ∧
      t.pending = s.pending := by
  classical
  induction calls generalizing s with
  | nil => exact ⟨[], s, rfl, .nil s, rfl⟩
  | cons call calls ih =>
    obtain ⟨⟨hlimit, hquery, hrefused⟩, hcalls⟩ := List.forall_mem_cons.mp h
    have hagreed : Agreed s.view (call.served s) := by
      apply agreed_of_unserved
      rintro ⟨c, package⟩ hx
      obtain ⟨hc, m, hfetched⟩ := mem_of_mem_servings hx
      have hk : c.key ∈ s.pending.take call.limit.toNat := by
        rw [← s.map_key_examined (by omega)]
        exact List.mem_map_of_mem hc
      have hnone : call.Unavailable c.batchId := hrefused c.key hk
      rw [← hfetched, hnone.fetched m]
    obtain ⟨t, ht⟩ := call.exists_returns chain hquery hagreed
    obtain ⟨hresolves, hkeys⟩ := ht.resolves
    have hsame : t.pending = s.pending := by
      rw [hresolves.pending hkeys, List.filter_eq_self]
      intro k hk
      by_contra hnot
      obtain ⟨htried, hserved⟩ := (call.keeps hlimit).stays k hk (eq_false_of_ne_true hnot)
      exact hserved (hrefused k htried)
    obtain ⟨steps, u, hsteps, hu, he⟩ := ih (hsame ▸ hcalls)
    exact ⟨(s, call) :: steps, u, congrArg (call :: ·) hsteps, .cons ht hu, he.trans hsame⟩

end Existence

end Waiting

section Witness

attribute [local instance] conformanceKeys

def sampleCall (limit : ℤ) : ResolveCall := ⟨fun _ _ _ => .ok lowerPackage, ["p"], limit⟩

variable {limit : ℤ}

theorem sampleCall_available : (sampleCall limit).Available
    "5ca8c08e0aefbc9ecced864f9499b9f7c2b8af326257f6de2f9dd5488ba356fd" :=
  ⟨"p", List.mem_cons_self, fun _ => by
    rw [sampleCall, acceptable_eq_some.mpr ⟨rfl, lowerPackage_valid, spelledPackage_batchId _ _⟩]
    rfl⟩

theorem sampleCall_unavailable : (sampleCall limit).Unavailable
    "0000000000000000000000000000000000000000000000000000000000000000" := by
  intro peer _ n
  apply acceptable_of_ne
  rw [lowerPackage, spelledPackage_batchId]
  decide +kernel

/-- A commitment that nobody can resolve, before the one of the batch. -/
def sampleJunkChain : Chain where
  network := "signet"
  blocks := [sampleGenesis, ("0a", ⟨some 2, [⟨some "1f",
    [⟨some 0, "6a26484953540301" ++
        "0000000000000000000000000000000000000000000000000000000000000000"⟩,
      ⟨some 1, "6a26" ++ samplePayload⟩]⟩]⟩)]
  hashes_nodup := by decide
  txids_nodup := by decide
  numbers_nodup := by decide

def junkRow : Commitment where
  txid := "1f"
  vout := 0
  batchId := "0000000000000000000000000000000000000000000000000000000000000000"
  payloadHex := "484953540301" ++ "0000000000000000000000000000000000000000000000000000000000000000"
  network := "signet"
  blockHeight := 1
  blockHash := "0a"
  blockTime := 2
  status := "confirmed"
  discoveredAt := 0
  resolved := false

theorem junk_commitments : (rescanned sampleJunkChain .empty).commitments.rows =
    [junkRow, sampleRow 1 samplePayload] := by
  decide +kernel

theorem junk_pending : (rescanned sampleJunkChain .empty).pending =
    [junkRow.key, (sampleRow 1 samplePayload).key] := by
  rw [Store.pending, junk_commitments]
  rfl

theorem sampleRow_mem : sampleRow 1 samplePayload ∈
    (rescanned sampleJunkChain .empty).commitments := by
  rw [Table.mem_def, junk_commitments]
  exact List.mem_cons_of_mem _ List.mem_cons_self

/-- A call for both rows resolves the one that is served, and the other one stays. -/
theorem sampleCall_resolves : ∃ t,
    (sampleCall 2).Returns sampleJunkChain.truthful (rescanned sampleJunkChain .empty) t ∧
    t.pending = [junkRow.key] := by
  have hexamined : (rescanned sampleJunkChain .empty).examined (sampleCall 2).limit =
      [junkRow, sampleRow 1 samplePayload] := by
    rw [Store.examined, Store.selectCommitments, junk_commitments]
    rfl
  have hjunk : (fetched (sampleCall 2).answers junkRow.batchId (sampleCall 2).peers 0).1 = none :=
    sampleCall_unavailable.fetched 0
  have hfetched : ∀ n, (fetched (sampleCall 2).answers (sampleRow 1 samplePayload).batchId
      (sampleCall 2).peers n).1 = some lowerPackage := fun n =>
    congrArg Prod.fst (fetched_of_const lowerPackage_valid (spelledPackage_batchId _ _))
  have hserved : (sampleCall 2).served (rescanned sampleJunkChain .empty) =
      [(junkRow, none), (sampleRow 1 samplePayload, some lowerPackage)] := by
    rw [ResolveCall.served, hexamined, servings, servings, servings, hjunk, hfetched]
  have hagreed : Agreed (rescanned sampleJunkChain .empty).view
      [(sampleRow 1 samplePayload, some lowerPackage)] := by
    apply agreed_singleton _ (spelledPackage_batchId _ _) (spelledPackage_payloadHex _ _)
    · decide +kernel
    · decide +kernel
    · decide +kernel
  obtain ⟨t, ht⟩ : ∃ t, (sampleCall 2).Returns sampleJunkChain.truthful
      (rescanned sampleJunkChain .empty) t := by
    apply ResolveCall.exists_returns _ (by decide : sqliteInt 2)
    rw [hserved]
    exact hagreed
  refine ⟨t, ht, ?_⟩
  obtain ⟨hresolves, hkeys⟩ := ht.resolves
  rw [hserved] at hresolves
  have hjunkpoint : junkRow.key.1 ∉ servedPoints
      [(junkRow, none), (sampleRow 1 samplePayload, some lowerPackage)] := by
    rintro ⟨c, package, hm, hp⟩
    simp only [List.mem_cons, Prod.mk.injEq, List.not_mem_nil, or_false] at hm
    rcases hm with ⟨-, h⟩ | ⟨rfl, -⟩
    · cases h
    · exact absurd hp (by decide)
  have hrowpoint : (sampleRow 1 samplePayload).key.1 ∈ servedPoints
      [(junkRow, none), (sampleRow 1 samplePayload, some lowerPackage)] :=
    ⟨_, lowerPackage, List.mem_cons_of_mem _ List.mem_cons_self, rfl⟩
  classical
  rw [hresolves.pending hkeys, junk_pending]
  simp only [List.filter_cons, List.filter_nil, hjunkpoint, hrowpoint, not_false_eq_true, not_true,
    decide_true, decide_false, if_true, Bool.false_eq_true, if_false]

/-- Two calls, for two unresolved rows, resolve the one that is served behind the other. -/
theorem resolved_after_calls_sample : ∃ steps t,
    steps.map Prod.snd = [sampleCall 2, sampleCall 2] ∧
    ResolveRuns sampleJunkChain.truthful steps (rescanned sampleJunkChain .empty) t ∧
    (∃ row ∈ t.commitments, row.point = (sampleRow 1 samplePayload).point ∧ row.resolved) ∧
      ∃ a ∈ t.anchors, a.point = (sampleRow 1 samplePayload).point ∧ a.status = .confirmed := by
  obtain ⟨t, ht, hpending⟩ := sampleCall_resolves
  have hidle : ∀ call ∈ [sampleCall 2], 1 ≤ call.limit ∧ sqliteInt call.limit ∧
      ∀ k ∈ t.pending.take call.limit.toNat, call.Unavailable k.2 := by
    rw [hpending]
    exact List.forall_mem_singleton.mpr
      ⟨by decide, by decide, List.forall_mem_singleton.mpr sampleCall_unavailable⟩
  obtain ⟨steps, u, hsteps, hlast, -⟩ := exists_idle_runs sampleJunkChain _ hidle
  obtain ⟨⟨t', call⟩, rfl, he⟩ := List.map_eq_singleton_iff.mp hsteps
  obtain rfl : call = sampleCall 2 := he
  obtain rfl : t' = t := by
    cases hlast
    rfl
  have hruns := ResolveRuns.cons ht hlast
  have hcount : 2 = ((rescanned sampleJunkChain .empty).commitments.rows.filter
      fun r => !r.resolved).length := by
    rw [junk_commitments]
    rfl
  refine ⟨_, u, rfl, hruns, (resolved_after_calls sampleRow_mem rfl hruns hcount ?_).1 ?_⟩
  · have hcall : 1 ≤ (sampleCall 2).limit ∧
        (sampleCall 2).Available (sampleRow 1 samplePayload).batchId :=
      ⟨by decide, sampleCall_available⟩
    exact List.forall_mem_cons.mpr ⟨hcall, List.forall_mem_singleton.mpr hcall⟩
  · -- In both calls one row is before the commitment, and a call examines two.
    have hbefore : ∀ L : List RowKey, (before L (sampleRow 1 samplePayload).key).length = 1 →
        (countBefore L (sampleRow 1 samplePayload).key
          (fun k => ¬ (sampleCall 2).Available k.2) : ℤ) < (sampleCall 2).limit := by
      intro L hL
      have hle := countBefore_le_length (L := L) (a := (sampleRow 1 samplePayload).key)
        (p := fun k => ¬ (sampleCall 2).Available k.2)
      rw [hL] at hle
      exact Int.lt_of_le_of_lt (Int.ofNat_le.mpr hle) (by decide)
    refine List.forall_mem_cons.mpr ⟨hbefore _ ?_, List.forall_mem_singleton.mpr (hbefore _ ?_)⟩
    · rw [junk_pending]
      decide
    · rw [hpending]
      decide

/-- Two calls, for two unresolved rows, leave the one that is served unresolved. -/
theorem junk_starves : Scans {sampleJunkChain} 0 .empty sampleJunkChain
      (rescanned sampleJunkChain .empty) ∧
    sampleRow 1 samplePayload ∈ (rescanned sampleJunkChain .empty).commitments ∧
    ((rescanned sampleJunkChain .empty).commitments.rows.filter fun r => !r.resolved).length = 2 ∧
    1 ≤ (sampleCall 1).limit ∧ (sampleCall 1).Available (sampleRow 1 samplePayload).batchId ∧
    ∃ steps t, steps.map Prod.snd = [sampleCall 1, sampleCall 1] ∧
      ResolveRuns sampleJunkChain.truthful steps (rescanned sampleJunkChain .empty) t ∧
      ∃ row ∈ t.commitments, row.point = (sampleRow 1 samplePayload).point ∧
        row.resolved = false := by
  have hone : 1 ≤ (sampleCall 1).limit ∧ sqliteInt (sampleCall 1).limit ∧
      ∀ k ∈ (rescanned sampleJunkChain .empty).pending.take (sampleCall 1).limit.toNat,
        (sampleCall 1).Unavailable k.2 := by
    rw [junk_pending]
    exact ⟨le_rfl, by decide, List.forall_mem_singleton.mpr sampleCall_unavailable⟩
  obtain ⟨steps, t, hsteps, hruns, hsame⟩ := exists_idle_runs sampleJunkChain
    [sampleCall 1, sampleCall 1]
    (List.forall_mem_cons.mpr ⟨hone, List.forall_mem_singleton.mpr hone⟩)
  have hstill : (sampleRow 1 samplePayload).key ∈ t.pending := by
    rw [hsame, junk_pending]
    exact List.mem_cons_of_mem _ List.mem_cons_self
  obtain ⟨row, hrow, he⟩ := List.mem_map.mp hstill
  obtain ⟨hrow, hres⟩ := List.mem_filter.mp hrow
  refine ⟨.one rfl (@ScanCall.of_eval _ 0 500 sampleJunkChain .empty (by decide +kernel)),
    sampleRow_mem, by rw [junk_commitments]; rfl, le_rfl, sampleCall_available, steps, t, hsteps,
    hruns, row, hrow, (Prod.mk.inj he).1, by simpa using hres⟩

end Witness

end HistoryAnchor

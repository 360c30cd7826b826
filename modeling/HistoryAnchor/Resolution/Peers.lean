import HistoryAnchor.Effects.Scripts
import HistoryAnchor.Node.Imports
import HistoryAnchor.Scan.Totality

/-! # What the peers serve

During one call of the resolver the peers answer each request as they like. The
answers are a script, and the package that a commitment gets is read off it: the
first acceptable answer of the peers that are asked in turn.
-/

namespace HistoryAnchor

open Python Effects Prog Discovery Tables

section Served

variable [Ed25519]

/-- The answers of the peers to the requests of one call, by the number of the request. -/
abbrev PeerAnswers := ℕ → PyStr → PyStr → Py Json

/-- An answer that the resolver accepts as the package of the batch. -/
def acceptable (batchId : PyStr) : Py Json → Option Json
  | .ok value =>
    if Packages.validatePackage value = .ok () ∧
      (value.getD "batch" .null).text "batch_id" = batchId then some value else none
  | .error _ => none

/-- The first acceptable answer from the request of this number on, and the number of the request
after it. -/
def fetched (answers : PeerAnswers) (batchId : PyStr) : List PyStr → ℕ → Option Json × ℕ
  | [], n => (none, n)
  | peer :: peers, n =>
    match acceptable batchId (answers n peer batchId) with
    | some package => (some package, n + 1)
    | none => fetched answers batchId peers (n + 1)

def servings (answers : PeerAnswers) (peers : List PyStr) :
    List Commitment → ℕ → List (Commitment × Option Json)
  | [], _ => []
  | c :: cs, n =>
    (c, (fetched answers c.batchId peers n).1) ::
      servings answers peers cs (fetched answers c.batchId peers n).2

theorem acceptable_eq_some {batchId : PyStr} {x : Py Json} {package : Json} :
    acceptable batchId x = some package ↔ x = .ok package ∧
      Packages.validatePackage package = .ok () ∧
      (package.getD "batch" .null).text "batch_id" = batchId := by
  cases x with
  | error e => exact iff_of_false nofun nofun
  | ok value =>
    rw [acceptable, Except.ok.injEq]
    constructor
    · intro h
      split_ifs at h with hv
      obtain rfl := Option.some.inj h
      exact ⟨rfl, hv⟩
    · rintro ⟨rfl, hv⟩
      exact if_pos hv

theorem acceptable_of_invalid {batchId : PyStr} {value : Json}
    (h : Packages.validatePackage value ≠ .ok ()) : acceptable batchId (.ok value) = none :=
  if_neg fun hv => h hv.1

theorem acceptable_of_ne {batchId : PyStr} {package : Json}
    (h : (package.getD "batch" .null).text "batch_id" ≠ batchId) :
    acceptable batchId (.ok package) = none :=
  if_neg fun hv => h hv.2

/-- A package is fetched exactly if one of the peers answers with it when it is asked. -/
theorem fetched_isSome_iff {answers : PeerAnswers} {batchId : PyStr} {peers : List PyStr} {n : ℕ} :
    (fetched answers batchId peers n).1.isSome ↔ ∃ (i : ℕ) (peer : PyStr),
      peers[i]? = some peer ∧ (acceptable batchId (answers (n + i) peer batchId)).isSome := by
  induction peers generalizing n with
  | nil => exact iff_of_false nofun fun ⟨i, peer, h, _⟩ => nomatch h
  | cons peer peers ih =>
    rw [fetched]
    cases hx : acceptable batchId (answers n peer batchId) with
    | some package =>
      exact iff_of_true rfl ⟨0, peer, rfl, by rw [Nat.add_zero, hx]; rfl⟩
    | none =>
      rw [ih]
      constructor
      · rintro ⟨i, peer', h, hi⟩
        rw [Nat.add_assoc, Nat.add_comm 1 i] at hi
        exact ⟨i + 1, peer', h, hi⟩
      · rintro ⟨i, peer', h, hi⟩
        cases i with
        | zero =>
          obtain rfl := Option.some.inj h
          rw [Nat.add_zero, hx] at hi
          cases hi
        | succ i =>
          rw [Nat.add_comm i 1, ← Nat.add_assoc] at hi
          exact ⟨i, peer', h, hi⟩

theorem fetched_of_const {batchId peer : PyStr} {peers : List PyStr} {package : Json} {n : ℕ}
    (hv : Packages.validatePackage package = .ok ())
    (hid : (package.getD "batch" .null).text "batch_id" = batchId) :
    (fetched (fun _ _ _ => .ok package) batchId (peer :: peers) n) = (some package, n + 1) := by
  rw [fetched, show acceptable batchId (.ok package) = some package from if_pos ⟨hv, hid⟩]

theorem mem_servings_of_const {peer : PyStr} {peers : List PyStr} {package : Json} {n : ℕ}
    {c : Commitment} {rows : List Commitment} (hv : Packages.validatePackage package = .ok ())
    (hid : (package.getD "batch" .null).text "batch_id" = c.batchId) (hc : c ∈ rows) :
    (c, some package) ∈ servings (fun _ _ _ => .ok package) (peer :: peers) rows n := by
  induction rows generalizing n with
  | nil => exact absurd hc List.not_mem_nil
  | cons c' rows ih =>
    rw [servings]
    rcases List.mem_cons.mp hc with rfl | hc
    · rw [fetched_of_const hv hid]
      exact List.mem_cons_self
    · exact List.mem_cons_of_mem _ (ih hc)

theorem acceptable_of_fetched {answers : PeerAnswers} {batchId : PyStr} {peers : List PyStr}
    {n : ℕ} {package : Json} (h : (fetched answers batchId peers n).1 = some package) :
    ∃ x, acceptable batchId x = some package := by
  induction peers generalizing n with
  | nil => cases h
  | cons peer peers ih =>
    rw [fetched] at h
    cases hx : acceptable batchId (answers n peer batchId) with
    | none =>
      rw [hx] at h
      exact ih h
    | some value =>
      rw [hx] at h
      exact ⟨_, hx.trans h⟩

def packageRequests (answers : PeerAnswers) : Script NodeCall Exc
  | _, .outside (.getPackage peer batchId) => some fun n => answers n peer batchId
  | _, _ => none

/-- The environment with these answers; the state counts the requests. -/
def answered (rpcAnswers : Answers) (answers : PeerAnswers) :
    Handler NodeCall Exc (Store × ℕ) :=
  numbered (environment rpcAnswers) (packageRequests answers)

variable {α : Type} {rpcAnswers : Answers} {answers : PeerAnswers} {s : Store} {n : ℕ}

theorem storage_answered {call : StorageCall α} {G : Store × ℕ → Prop}
    {Q : Py α → Store × ℕ → Prop} :
    (storage call).Alone (answered rpcAnswers answers) G Q (s, n) ↔
      G ((s.run call).2, n) ∧ Q (s.run call).1 ((s.run call).2, n) := by
  rw [storage, answered, alone_perform_unscripted rfl]
  constructor
  · intro h
    exact h _ _ rfl
  · intro h x s' hx
    obtain ⟨rfl, rfl⟩ := Prod.mk.inj hx
    exact h

theorem fetchPackage_answered {batchId : PyStr} {peers : List PyStr} {errors : List PeerError}
    {Q : Py (Option Json × List PeerError) → Store × ℕ → Prop}
    (done : ∀ errors, Q (.ok ((fetched answers batchId peers n).1, errors))
      (s, (fetched answers batchId peers n).2)) :
    (fetchPackage batchId peers errors).Alone (answered rpcAnswers answers) (fun _ => True) Q
      (s, n) := by
  induction peers generalizing n errors with
  | nil => exact done errors
  | cons peer peers ih =>
    simp only [fetchPackage, downloadPackage, bind_eq, ensures_bind, ensures_outcome]
    apply (alone_perform_scripted rfl).mpr
    refine ⟨trivial, ?_⟩
    have hnext : acceptable batchId (answers n peer batchId) = none →
        ∀ errors, (fetchPackage batchId peers errors).Alone (answered rpcAnswers answers)
          (fun _ => True) Q (s, n + 1) := by
      intro hnone errors
      rw [fetched, hnone] at done
      exact ih done
    cases hx : answers n peer batchId with
    | error e =>
      rw [hx] at hnext
      exact hnext rfl _
    | ok value =>
      rw [hx] at hnext
      cases value with
      | obj fields =>
        simp only [thenOk_ok, Service.check, require, if_true, ensures_bind, ensures_ofExcept,
          pure_eq]
        cases hv : Packages.validatePackage (.obj fields) with
        | error e =>
          refine hnext (acceptable_of_invalid fun h => ?_) _
          cases hv.symm.trans h
        | ok _ =>
          rw [thenOk_ok, ensures_ret, thenOk_ok]
          by_cases hid : ((Json.obj fields).getD "batch" .null).text "batch_id" = batchId
          · rw [if_pos hid]
            have hacc : acceptable batchId (answers n peer batchId) = some (.obj fields) := by
              rw [hx]
              exact if_pos ⟨hv, hid⟩
            rw [fetched, hacc] at done
            exact done errors
          · rw [if_neg hid]
            exact hnext (if_neg fun h => hid h.2) _
      | _ => exact hnext (acceptable_of_invalid raise_ne_ok) _

def NodeCall.IsStorage : {β : Type} → NodeCall β → Prop
  | _, .storage _ => True
  | _, _ => False

theorem packageRequests_of_isStorage {β : Type} {call : NodeCall β} (h : call.IsStorage) :
    packageRequests answers call = none := by
  cases call with
  | storage c => rfl
  | rpc c => exact h.elim
  | outside c => exact h.elim

/-- What only calls the storage does the same in this environment, where it asks nobody. -/
theorem alone_answered {p : Node α} {Q : Py α → Store × ℕ → Prop}
    (hp : p.Calls fun _ c => c.IsStorage)
    (h : p.Alone (environment rpcAnswers) (fun _ => True) (fun r t => Q r (t, n)) s) :
    p.Alone (answered rpcAnswers answers) (fun _ => True) Q (s, n) := by
  have hscript : p.Calls fun _ c => packageRequests answers c = none :=
    hp.mono fun _ _ => packageRequests_of_isStorage
  apply (Alone.numbered_of_calls (n := n) hscript h).mono (fun _ _ => id) (fun _ _ _ => trivial)
  rintro r ⟨t, m⟩ ⟨hQ, rfl⟩
  exact hQ

namespace Service

theorem storage_calls (call : StorageCall α) : (storage call).Calls fun _ c => c.IsStorage :=
  calls_perform trivial

theorem submitRecord_calls (record : Json) :
    (submitRecord record false noPolicy).Calls fun _ c => c.IsStorage :=
  submitRecord_calls_of (fun _ => trivial) (fun _ => trivial) _ _

theorem importPass_calls (records pending : List Json) (imported : ℕ) :
    (importPass records pending imported).Calls fun _ c => c.IsStorage := by
  induction records generalizing pending imported with
  | nil => exact calls_ret _
  | cons record rest ih =>
    have hrest : ∀ stored : Bool, Calls (fun _ c => NodeCall.IsStorage c)
        (if !stored ∧ record.text "target_record_id" ∈ pending.map (Json.text · "record_id") then
          importPass rest pending imported
        else do
          let result ← submitRecord record false noPolicy
          importPass rest (pending.filter fun r => r.text "record_id" ≠ record.text "record_id")
            (if result = .accepted then imported + 1 else imported)) := by
      intro stored
      split_ifs
      · exact ih _ _
      · exact (submitRecord_calls _).bind fun _ => ih _ _
    unfold importPass
    dsimp only
    split_ifs
    · exact hrest true
    · rw [map_eq_pure_bind]
      exact Calls.bind ((storage_calls _).bind fun _ => calls_ret _) hrest

theorem importPending_calls (unresolved : PyStr) (fuel : ℕ) (pending : List Json) (imported : ℕ) :
    (importPending unresolved fuel pending imported).Calls fun _ c => c.IsStorage := by
  induction fuel generalizing pending imported with
  | zero =>
    cases pending with
    | nil => exact calls_ret _
    | cons => exact calls_raise _
  | succ fuel ih =>
    cases pending with
    | nil => exact calls_ret _
    | cons record rest =>
      unfold importPending
      refine (importPass_calls _ _ _).bind fun x => ?_
      obtain ⟨left, imported'⟩ := x
      dsimp only
      split_ifs
      · exact (calls_raise _).bind fun _ => ih _ _
      · exact ih _ _

theorem importBatch_calls (batch : Json) :
    (importBatch batch).Calls fun _ c => c.IsStorage := by
  unfold importBatch
  split
  · exact calls_raise _
  · refine Calls.bind (calls_foldlM ?_ _ 0) fun missing => ?_
    · exact fun n recordId => (storage_calls _).bind fun _ => calls_ret _
    · refine (calls_ofExcept _).bind fun _ => ?_
      exact (storage_calls _).bind fun _ => calls_ret _

theorem importPackage_calls (package : Json) :
    (importPackage package).Calls fun _ c => c.IsStorage := by
  refine (calls_ofExcept _).bind fun _ => ?_
  refine (importPending_calls _ _ _ _).bind fun _ => ?_
  exact (importBatch_calls _).bind fun _ => calls_ret _

theorem registerScannedAnchor_calls (batchId : PyStr) (p : Point) :
    (registerScannedAnchor batchId p).Calls fun _ c => c.IsStorage := by
  refine (storage_calls _).bind fun batch => ?_
  cases batch with
  | none => exact calls_raise _
  | some batch =>
    refine (storage_calls _).bind fun rows => ?_
    have hmarks : ∀ cs : List Commitment, (forM cs fun c =>
        storage (.markCommitmentResolved c.point)).Calls fun _ c => c.IsStorage :=
      calls_forM fun c => storage_calls _
    cases rows.filter fun c => c.point = p with
    | nil => exact calls_raise _
    | cons commitment others =>
      have hrest : ∀ a : Anchor, Calls (fun _ c => NodeCall.IsStorage c) (do
          let _ ← storage (.addAnchor a)
          forM (commitment :: others) fun c => storage (.markCommitmentResolved c.point)
          return a) := fun a =>
        (storage_calls _).bind fun _ => (hmarks _).bind fun _ => calls_ret _
      dsimp only
      split_ifs
      · exact (calls_raise _).bind fun _ => hrest _
      · exact hrest _

end Service

end Served

end HistoryAnchor

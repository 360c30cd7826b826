import HistoryAnchor.Gateway.SlidingLog
import HistoryAnchor.Tables.Keyed
import Mathlib.Algebra.Order.Ring.Rat

/-! # The write limiter

A queue of times for each key, emptied lazily: when its key calls again, when the
table is full and at every thousandth call. Its decisions are those of a
sliding-window log, whenever the queues are pruned.
-/

namespace HistoryAnchor

open Tables SlidingLog

namespace RateLimiter

variable {κ : Type*} [DecidableEq κ]

abbrev Events (κ : Type*) [DecidableEq κ] := Table (Prod.fst : κ × List ℚ → κ)

/-- The limiter without its limits. -/
structure FixedWindowRateLimiter (κ : Type*) [DecidableEq κ] where
  events : Events κ
  operations : ℕ

def initial : FixedWindowRateLimiter κ where
  events := .empty
  operations := 0

def expire (cutoff : ℚ) (queue : List ℚ) : List ℚ := queue.dropWhile (· ≤ cutoff)

/-- Expire every queue and forget the keys whose queue is empty. -/
def prune (cutoff : ℚ) (events : Events κ) : Events κ :=
  (events.updateWhere (fun _ => true) (fun e => (e.1, expire cutoff e.2)) fun _ => rfl).deleteWhere
    (·.2.isEmpty)

def put (events : Events κ) (key : κ) (queue : List ℚ) : Events κ :=
  events.upsert (fun _ new => new) (fun _ _ => rfl) (key, queue)

def settle (limits : Policy ℚ) (events : Events κ) (key : κ) (now : ℚ) (queue : List ℚ) :
    Bool × Events κ :=
  let queue := expire (now - limits.window) queue
  if limits.requests ≤ queue.length then (false, put events key queue)
  else (true, put events key (queue ++ [now]))

def decideCall (limits : Policy ℚ) (events : Events κ) (key : κ) (now : ℚ) : Bool × Events κ :=
  match events.find? key with
  | some (_, queue) => settle limits events key now queue
  | none =>
    if limits.maxKeys ≤ events.rows.length then
      let events := prune (now - limits.window) events
      if limits.maxKeys ≤ events.rows.length then (false, events)
      else settle limits events key now []
    else settle limits events key now []

/-- A call of a limiter that prunes at the operations that are `due`. -/
def allowWhen (due : ℕ → Bool) (limits : Policy ℚ) (limiter : FixedWindowRateLimiter κ) (key : κ)
    (now : ℚ) : Bool × FixedWindowRateLimiter κ :=
  let operations := limiter.operations + 1
  let events :=
    if due operations then prune (now - limits.window) limiter.events else limiter.events
  let (allowed, events) := decideCall limits events key now
  (allowed, ⟨events, operations⟩)

/-- `self._operations % 1_000 == 0`. -/
def everyThousand (operations : ℕ) : Bool := operations % 1000 = 0

def allow (limits : Policy ℚ) (limiter : FixedWindowRateLimiter κ) (key : κ) (now : ℚ) :
    Bool × FixedWindowRateLimiter κ :=
  allowWhen everyThousand limits limiter key now

/-- One call of a run, with the log of the calls that were allowed. -/
def callOnce (due : ℕ → Bool) (limits : Policy ℚ)
    (s : FixedWindowRateLimiter κ × List (κ × ℚ)) (c : κ × ℚ) :
    FixedWindowRateLimiter κ × List (κ × ℚ) :=
  let (allowed, limiter) := allowWhen due limits s.1 c.1 c.2
  (limiter, if allowed then s.2 ++ [c] else s.2)

/-- The limiter after some calls, with the log of those that it allowed. -/
def runWhen (due : ℕ → Bool) (limits : Policy ℚ) (calls : List (κ × ℚ)) :
    FixedWindowRateLimiter κ × List (κ × ℚ) :=
  calls.foldl (callOnce due limits) (initial, [])

def run (limits : Policy ℚ) (calls : List (κ × ℚ)) : FixedWindowRateLimiter κ × List (κ × ℚ) :=
  runWhen everyThousand limits calls

variable {events : Events κ} {key : κ} {cutoff now : ℚ} {queue : List ℚ} {log : List (κ × ℚ)}
  {limits : Policy ℚ}

def queueOf (events : Events κ) (key : κ) : List ℚ := ((events.find? key).map Prod.snd).getD []

def Ordered (events : Events κ) : Prop := ∀ e ∈ events, e.2.Pairwise (· ≤ ·)

theorem expire_eq_filter (h : queue.Pairwise (· ≤ ·)) :
    expire cutoff queue = queue.filter (cutoff < ·) := by
  induction queue with
  | nil => rfl
  | cons t ts ih =>
    obtain ⟨ht, hts⟩ := List.pairwise_cons.mp h
    rw [expire, List.dropWhile_cons]
    split_ifs with hexpired
    · rw [decide_eq_true_iff] at hexpired
      rw [List.filter_cons_of_neg (by simpa using hexpired), ← ih hts, expire]
    · rw [decide_eq_true_iff, not_le] at hexpired
      symm
      rw [List.filter_eq_self]
      intro x hx
      rw [decide_eq_true_iff]
      rcases List.mem_cons.mp hx with rfl | hx
      · exact hexpired
      · exact hexpired.trans_le (ht x hx)

theorem ordered_queueOf (h : Ordered events) : (queueOf events key).Pairwise (· ≤ ·) := by
  rw [queueOf]
  cases hf : events.find? key with
  | none => exact List.Pairwise.nil
  | some e => exact h e (Table.find?_eq_some.mp hf).1

theorem mem_prune {e : κ × List ℚ} : e ∈ prune cutoff events ↔
    ∃ queue, (e.1, queue) ∈ events ∧ e.2 = expire cutoff queue ∧ e.2 ≠ [] := by
  rw [prune, Table.mem_deleteWhere, Table.mem_updateWhere]
  constructor
  · rintro ⟨⟨⟨k, queue⟩, h, rfl⟩, hne⟩
    exact ⟨queue, h, rfl, by simpa using hne⟩
  · rintro ⟨queue, h, he, hne⟩
    refine ⟨⟨(e.1, queue), h, ?_⟩, by simpa using hne⟩
    rw [if_pos rfl, ← he]

theorem ordered_prune (h : Ordered events) : Ordered (prune cutoff events) := by
  intro e he
  obtain ⟨queue, hq, he, -⟩ := mem_prune.mp he
  rw [he]
  exact (h _ hq).sublist (List.dropWhile_sublist _)

theorem queueOf_of_mem {e : κ × List ℚ} (h : e ∈ events) : queueOf events e.1 = e.2 := by
  rw [queueOf, Table.find?_eq_some.mpr ⟨h, rfl⟩]
  rfl

theorem queueOf_prune (h : Ordered events) (key : κ) :
    queueOf (prune cutoff events) key = (queueOf events key).filter (cutoff < ·) := by
  rw [← expire_eq_filter (ordered_queueOf h)]
  cases hf : events.find? key with
  | none =>
    have hnone : (prune cutoff events).find? key = none := by
      rw [Table.find?_eq_none] at hf ⊢
      intro e he
      obtain ⟨queue, hq, -⟩ := mem_prune.mp he
      exact hf (e.1, queue) hq
    rw [queueOf, hnone, queueOf, hf]
    rfl
  | some e =>
    obtain ⟨he, rfl⟩ := Table.find?_eq_some.mp hf
    rw [queueOf_of_mem he]
    by_cases hempty : expire cutoff e.2 = []
    · have hnone : (prune cutoff events).find? e.1 = none := by
        rw [Table.find?_eq_none]
        intro e' he' hk
        obtain ⟨queue, hq, heq, hne⟩ := mem_prune.mp he'
        obtain rfl : (e'.1, queue) = e := Table.eq_of_key hq he hk
        exact hne (heq.trans hempty)
      rw [queueOf, hnone, hempty]
      rfl
    · exact queueOf_of_mem (e := (e.1, expire cutoff e.2))
        (mem_prune.mpr ⟨e.2, he, rfl, hempty⟩)

theorem length_prune_le : (prune cutoff events).rows.length ≤ events.rows.length := by
  rw [prune, Table.deleteWhere, Table.updateWhere]
  exact (List.length_filter_le _ _).trans_eq (List.length_map _)

theorem queueOf_put (k : κ) : queueOf (put events key queue) k =
    if k = key then queue else queueOf events k := by
  split_ifs with h
  · subst h
    exact queueOf_of_mem Table.mem_upsert_new
  · rw [queueOf, put, Table.find?_upsert_of_ne h, queueOf]

theorem ordered_put (h : Ordered events) (hq : queue.Pairwise (· ≤ ·)) :
    Ordered (put events key queue) := by
  intro e he
  rcases Table.mem_upsert.mp he with ⟨he, -⟩ | ⟨_, _, _, rfl⟩ | ⟨rfl, -⟩
  · exact h e he
  · exact hq
  · exact hq

theorem length_put : (put events key queue).rows.length =
    if events.find? key = none then events.rows.length + 1 else events.rows.length := by
  rw [put, Table.upsert]
  split_ifs with hex hnone hnone
  · obtain ⟨e, he, hk⟩ := hex
    exact absurd hk (Table.find?_eq_none.mp hnone e he)
  · exact List.length_map _
  · rw [List.length_append, List.length_singleton]
  · rw [Table.find?_eq_none] at hnone
    exact absurd (fun e he hk => hex ⟨e, he, hk⟩) hnone

/-- The queues hold what of the log is not over at the given time. -/
structure Tracks (limits : Policy ℚ) (events : Events κ) (log : List (κ × ℚ)) (now : ℚ) :
    Prop where
  ordered : Ordered events
  past : ∀ c ∈ log, c.2 ≤ now
  live : ∀ key cutoff, now - limits.window ≤ cutoff →
    (queueOf events key).filter (cutoff < ·) = (times log key).filter (cutoff < ·)
  bounded : events.rows.length ≤ limits.maxKeys

namespace Tracks

variable (h : Tracks limits events log now)

include h

theorem mono {later : ℚ} (hle : now ≤ later) : Tracks limits events log later where
  ordered := h.ordered
  past c hc := (h.past c hc).trans hle
  live key cutoff hc := h.live key cutoff ((sub_le_sub_right hle _).trans hc)
  bounded := h.bounded

theorem prune : Tracks limits (prune (now - limits.window) events) log now where
  ordered := ordered_prune h.ordered
  past := h.past
  live key cutoff hc := by
    rw [queueOf_prune h.ordered, List.filter_filter, ← h.live key cutoff hc]
    apply List.filter_congr
    intro t _
    rw [Bool.and_eq_left_iff_imp, decide_eq_true_iff, decide_eq_true_iff]
    exact hc.trans_lt
  bounded := length_prune_le.trans h.bounded

theorem expire_queueOf (key : κ) : expire (now - limits.window) (queueOf events key) =
    within log key (now - limits.window) now := by
  rw [expire_eq_filter (ordered_queueOf h.ordered), within_of_le h.past, h.live key _ le_rfl]

theorem within_ne_nil_iff {key : κ} : within log key (now - limits.window) now ≠ [] ↔
    ∃ e ∈ RateLimiter.prune (now - limits.window) events, e.1 = key := by
  rw [← h.expire_queueOf]
  constructor
  · intro hne
    cases hf : events.find? key with
    | none =>
      rw [queueOf, hf] at hne
      exact absurd rfl hne
    | some e =>
      obtain ⟨he, rfl⟩ := Table.find?_eq_some.mp hf
      rw [queueOf_of_mem he] at hne
      exact ⟨(e.1, expire (now - limits.window) e.2), mem_prune.mpr ⟨e.2, he, rfl, hne⟩, rfl⟩
  · rintro ⟨e, he, rfl⟩
    obtain ⟨queue, hq, heq, hne⟩ := mem_prune.mp he
    rw [queueOf_of_mem hq, ← heq]
    exact hne

/-- Others crowd a key out exactly if it has no queue and the table stays full when pruned. -/
theorem crowded_iff : Crowded limits log key now ↔ events.find? key = none ∧
    limits.maxKeys ≤ (RateLimiter.prune (now - limits.window) events).rows.length := by
  constructor
  · rintro ⟨ks, hcard, hkey, hks⟩
    have hpruned : ks ⊆
        ((RateLimiter.prune (now - limits.window) events).rows.map Prod.fst).toFinset := by
      intro k hk
      rw [List.mem_toFinset, List.mem_map]
      exact h.within_ne_nil_iff.mp (hks k hk)
    have hlength := Finset.card_le_card hpruned
    rw [List.toFinset_card_of_nodup (Table.nodup _), List.length_map] at hlength
    refine ⟨?_, hcard.trans hlength⟩
    rw [Table.find?_eq_none]
    rintro e he rfl
    -- The key itself would be one more than the table can hold.
    have hall : insert e.1 ks ⊆ (events.rows.map Prod.fst).toFinset := by
      intro k hk
      rw [List.mem_toFinset, List.mem_map]
      rcases Finset.mem_insert.mp hk with rfl | hk
      · exact ⟨e, he, rfl⟩
      · obtain ⟨e', he', rfl⟩ := h.within_ne_nil_iff.mp (hks k hk)
        obtain ⟨queue, hq, -⟩ := mem_prune.mp he'
        exact ⟨_, hq, rfl⟩
    have hmore := Finset.card_le_card hall
    rw [List.toFinset_card_of_nodup events.nodup, List.length_map,
      Finset.card_insert_of_notMem hkey] at hmore
    have hbounded := h.bounded
    omega
  · rintro ⟨hnone, hfull⟩
    refine ⟨((RateLimiter.prune (now - limits.window) events).rows.map Prod.fst).toFinset,
      ?_, ?_, ?_⟩
    · rw [List.toFinset_card_of_nodup (Table.nodup _), List.length_map]
      exact hfull
    · rw [List.mem_toFinset, List.mem_map]
      rintro ⟨e, he, rfl⟩
      obtain ⟨queue, hq, -⟩ := mem_prune.mp he
      exact Table.find?_eq_none.mp hnone _ hq rfl
    · intro k hk
      rw [List.mem_toFinset, List.mem_map] at hk
      exact h.within_ne_nil_iff.mpr hk

theorem live_expire {cutoff : ℚ} (hc : now - limits.window ≤ cutoff) :
    (expire (now - limits.window) (queueOf events key)).filter (cutoff < ·) =
      (times log key).filter (cutoff < ·) := by
  rw [← h.live key cutoff hc, expire_eq_filter (ordered_queueOf h.ordered), List.filter_filter]
  apply List.filter_congr
  intro t _
  rw [Bool.and_eq_left_iff_imp, decide_eq_true_iff, decide_eq_true_iff]
  exact hc.trans_lt

theorem ordered_expire :
    (expire (now - limits.window) (queueOf events key)).Pairwise (· ≤ ·) :=
  (ordered_queueOf h.ordered).sublist (List.dropWhile_sublist _)

theorem length_put_le (hroom : events.find? key = none → events.rows.length < limits.maxKeys) :
    (put events key queue).rows.length ≤ limits.maxKeys := by
  rw [length_put]
  split_ifs with hnone
  · exact hroom hnone
  · exact h.bounded

theorem refuse (hroom : events.find? key = none → events.rows.length < limits.maxKeys) :
    Tracks limits (put events key (expire (now - limits.window) (queueOf events key))) log now where
  ordered := ordered_put h.ordered h.ordered_expire
  past := h.past
  live k cutoff hc := by
    rw [queueOf_put]
    split_ifs with hk
    · rw [hk]
      exact h.live_expire hc
    · exact h.live k cutoff hc
  bounded := h.length_put_le hroom

theorem accept (hroom : events.find? key = none → events.rows.length < limits.maxKeys) :
    Tracks limits (put events key (expire (now - limits.window) (queueOf events key) ++ [now]))
      (log ++ [(key, now)]) now where
  ordered := by
    apply ordered_put h.ordered
    rw [List.pairwise_append]
    refine ⟨h.ordered_expire, List.pairwise_singleton _ _, ?_⟩
    intro t ht x hx
    rw [List.mem_singleton.mp hx]
    rw [h.expire_queueOf] at ht
    exact h.past _ (mem_times.mp (List.mem_filter.mp ht).1)
  past c hc := by
    rcases List.mem_append.mp hc with hc | hc
    · exact h.past c hc
    · rw [List.mem_singleton.mp hc]
  live k cutoff hc := by
    rw [queueOf_put, times_append_singleton]
    by_cases hk : k = key
    · rw [if_pos hk, if_pos hk.symm, List.filter_append, List.filter_append, h.live_expire hc, hk]
    · rw [if_neg hk, if_neg (Ne.symm hk), List.append_nil]
      exact h.live k cutoff hc
  bounded := h.length_put_le hroom

/-- The end of a call refuses exactly the keys that are full, and keeps track of the others. -/
theorem settle (key : κ)
    (hroom : events.find? key = none → events.rows.length < limits.maxKeys) :
    ((RateLimiter.settle limits events key now (queueOf events key)).1 = false ↔
      Full limits log key now) ∧
    Tracks limits (RateLimiter.settle limits events key now (queueOf events key)).2
      (if (RateLimiter.settle limits events key now (queueOf events key)).1
        then log ++ [(key, now)] else log) now := by
  rw [RateLimiter.settle, Full, ← h.expire_queueOf]
  by_cases hfull : limits.requests ≤ (expire (now - limits.window) (queueOf events key)).length
  · rw [if_pos hfull, if_neg Bool.false_ne_true]
    exact ⟨iff_of_true rfl hfull, h.refuse hroom⟩
  · rw [if_neg hfull, if_pos rfl]
    exact ⟨iff_of_false (Bool.true_eq_false ▸ not_false) hfull, h.accept hroom⟩

theorem decideCall :
    ((RateLimiter.decideCall limits events key now).1 = false ↔
      Full limits log key now ∨ Crowded limits log key now) ∧
    Tracks limits (RateLimiter.decideCall limits events key now).2
      (if (RateLimiter.decideCall limits events key now).1
        then log ++ [(key, now)] else log) now := by
  rw [h.crowded_iff, RateLimiter.decideCall]
  cases hf : events.find? key with
  | some e =>
    have hq : queueOf events key = e.2 := by
      rw [queueOf, hf]
      rfl
    obtain ⟨hdecision, htracks⟩ := h.settle key fun hnone => by rw [hf] at hnone; cases hnone
    rw [hq] at hdecision htracks
    refine ⟨hdecision.trans (or_iff_left ?_).symm, htracks⟩
    rintro ⟨hnone, -⟩
    cases hnone
  | none =>
    have hq : queueOf events key = [] := by
      rw [queueOf, hf]
      rfl
    dsimp only
    by_cases hfull : limits.maxKeys ≤ events.rows.length
    · rw [if_pos hfull]
      by_cases hpruned : limits.maxKeys ≤
          (RateLimiter.prune (now - limits.window) events).rows.length
      · rw [if_pos hpruned, if_neg Bool.false_ne_true]
        exact ⟨iff_of_true rfl (Or.inr ⟨rfl, hpruned⟩), h.prune⟩
      · have hq' : queueOf (RateLimiter.prune (now - limits.window) events) key = [] := by
          rw [queueOf_prune h.ordered, hq, List.filter_nil]
        obtain ⟨hdecision, htracks⟩ := h.prune.settle key fun _ => not_le.mp hpruned
        rw [hq'] at hdecision htracks
        rw [if_neg hpruned]
        exact ⟨hdecision.trans (or_iff_left fun hc => hpruned hc.2).symm, htracks⟩
    · obtain ⟨hdecision, htracks⟩ := h.settle key fun _ => not_le.mp hfull
      rw [hq] at hdecision htracks
      rw [if_neg hfull]
      refine ⟨hdecision.trans (or_iff_left ?_).symm, htracks⟩
      exact fun hc => hfull (hc.2.trans length_prune_le)

end Tracks

section Run

variable {due : ℕ → Bool} {calls : List (κ × ℚ)} {s : FixedWindowRateLimiter κ}

/-- Whether a call prunes first changes neither its decision nor what the queues track. -/
theorem allowWhen_tracks (h : Tracks limits s.events log now) (due : ℕ → Bool) (key : κ) :
    ((allowWhen due limits s key now).1 = false ↔
      Full limits log key now ∨ Crowded limits log key now) ∧
    Tracks limits (allowWhen due limits s key now).2.events
      (if (allowWhen due limits s key now).1 then log ++ [(key, now)] else log) now := by
  rw [allowWhen]
  by_cases hdue : due (s.operations + 1)
  · rw [if_pos hdue]
    exact h.prune.decideCall
  · rw [if_neg hdue]
    exact h.decideCall

theorem runWhen_append_singleton (c : κ × ℚ) : runWhen due limits (calls ++ [c]) =
    callOnce due limits (runWhen due limits calls) c := by
  rw [runWhen, List.foldl_append, ← runWhen]
  rfl

theorem tracks_initial : Tracks limits (initial : FixedWindowRateLimiter κ).events [] now where
  ordered := fun _ he => absurd he Table.not_mem_empty
  past := fun _ hc => absurd hc List.not_mem_nil
  live := fun _ _ _ => rfl
  bounded := Nat.zero_le _

/-- At the end of a run the queues are what the log says, and the log is one that the limits
admit. -/
theorem runWhen_tracks (due : ℕ → Bool) (limits : Policy ℚ)
    (hcalls : (calls.map Prod.snd).Pairwise (· ≤ ·)) (hnow : ∀ c ∈ calls, c.2 ≤ now) :
    Tracks limits (runWhen due limits calls).1.events (runWhen due limits calls).2 now ∧
      Admitted limits (runWhen due limits calls).2 := by
  induction calls using List.reverseRecOn generalizing now with
  | nil => exact ⟨tracks_initial, .nil⟩
  | append_singleton calls c ih =>
    rw [List.map_append, List.pairwise_append] at hcalls
    obtain ⟨hcalls, -, hlast⟩ := hcalls
    have hle : ∀ c' ∈ calls, c'.2 ≤ c.2 := fun c' hc' =>
      hlast _ (List.mem_map_of_mem hc') _ (List.mem_singleton_self _)
    obtain ⟨htracks, hadmitted⟩ := ih hcalls hle
    obtain ⟨hdecision, hnext⟩ := allowWhen_tracks htracks due c.1
    rw [runWhen_append_singleton, callOnce]
    refine ⟨hnext.mono (hnow c (List.mem_append_right _ (List.mem_singleton_self _))), ?_⟩
    dsimp only
    split_ifs with hallowed
    · apply hadmitted.snoc htracks.past
      intro hfull
      rw [hdecision.mpr (Or.inl hfull)] at hallowed
      exact Bool.false_ne_true hallowed
    · exact hadmitted

omit [DecidableEq κ] in
theorem exists_bound (calls : List (κ × ℚ)) : ∃ last, ∀ c ∈ calls, c.2 ≤ last := by
  induction calls with
  | nil => exact ⟨0, fun _ hc => absurd hc List.not_mem_nil⟩
  | cons c calls ih =>
    obtain ⟨last, hlast⟩ := ih
    refine ⟨max c.2 last, List.forall_mem_cons.mpr ⟨le_max_left _ _, fun c' hc' => ?_⟩⟩
    exact (hlast c' hc').trans (le_max_right _ _)

theorem length_within_run_le (limits : Policy ℚ) (hcalls : (calls.map Prod.snd).Pairwise (· ≤ ·))
    (key : κ) (a : ℚ) :
    (within (run limits calls).2 key a (a + limits.window)).length ≤ limits.requests := by
  obtain ⟨last, hlast⟩ := exists_bound calls
  exact (runWhen_tracks everyThousand limits hcalls hlast).2.length_within_le key a

theorem log_runWhen (due due' : ℕ → Bool) (hcalls : (calls.map Prod.snd).Pairwise (· ≤ ·)) :
    (runWhen due limits calls).2 = (runWhen due' limits calls).2 := by
  induction calls using List.reverseRecOn with
  | nil => rfl
  | append_singleton calls c ih =>
    rw [List.map_append, List.pairwise_append] at hcalls
    obtain ⟨hcalls, -, hlast⟩ := hcalls
    have hle : ∀ c' ∈ calls, c'.2 ≤ c.2 := fun c' hc' =>
      hlast _ (List.mem_map_of_mem hc') _ (List.mem_singleton_self _)
    have hdecision := (allowWhen_tracks (runWhen_tracks due limits hcalls hle).1 due c.1).1
    have hdecision' := (allowWhen_tracks (runWhen_tracks due' limits hcalls hle).1 due' c.1).1
    rw [ih hcalls, ← hdecision', Bool.eq_false_iff, Bool.eq_false_iff, not_iff_not,
      ← Bool.eq_iff_iff] at hdecision
    rw [runWhen_append_singleton, runWhen_append_singleton, callOnce, callOnce, ih hcalls]
    simp only [hdecision]

/-- In every run with growing times a call is refused exactly if its key is full in the log of the
allowed calls, or has no queue and is crowded out by others; no key has more allowed calls than it
may have in any window, no more keys are tracked than may be, and a limiter that prunes at other
times takes the same decisions. -/
theorem limiter_is_slidingLog (limits : Policy ℚ) (calls : List (κ × ℚ))
    (hcalls : (calls.map Prod.snd).Pairwise (· ≤ ·)) :
    (∀ earlier key now, earlier ++ [(key, now)] <+: calls →
      ((allow limits (run limits earlier).1 key now).1 = false ↔
        Full limits (run limits earlier).2 key now ∨
          (run limits earlier).1.events.find? key = none ∧
            Crowded limits (run limits earlier).2 key now) ∧
      ∀ due : ℕ → Bool, (allowWhen due limits (runWhen due limits earlier).1 key now).1 =
        (allow limits (run limits earlier).1 key now).1) ∧
    (∀ key a, (within (run limits calls).2 key a (a + limits.window)).length ≤ limits.requests) ∧
    (run limits calls).1.events.rows.length ≤ limits.maxKeys := by
  obtain ⟨last, hlast⟩ := exists_bound calls
  have hbounded := (runWhen_tracks everyThousand limits hcalls hlast).1.bounded
  refine ⟨fun earlier key now hearly => ?_, length_within_run_le limits hcalls, hbounded⟩
  have hsorted := hcalls.sublist (hearly.map Prod.snd).sublist
  rw [List.map_append, List.pairwise_append] at hsorted
  obtain ⟨hearlier, -, hle⟩ := hsorted
  have hnow : ∀ c ∈ earlier, c.2 ≤ now := fun c hc =>
    hle _ (List.mem_map_of_mem hc) _ (List.mem_singleton_self _)
  have htracks := (runWhen_tracks everyThousand limits hearlier hnow).1
  have hdecision := (allowWhen_tracks htracks everyThousand key).1
  constructor
  · rw [allow, run, hdecision, and_iff_right_of_imp]
    exact fun hc => (htracks.crowded_iff.mp hc).1
  · intro due
    have hdecision' := (allowWhen_tracks (runWhen_tracks due limits hearlier hnow).1 due key).1
    rw [log_runWhen due everyThousand hearlier, ← hdecision, Bool.eq_false_iff,
      Bool.eq_false_iff, not_iff_not, ← Bool.eq_iff_iff] at hdecision'
    exact hdecision'

theorem limiter_is_slidingLog_sample :
    (∀ earlier key now, earlier ++ [(key, now)] <+: [("one", (0 : ℚ)), ("two", 0), ("three", 0)] →
      ((allow ⟨1, 60, 2⟩ (run ⟨1, 60, 2⟩ earlier).1 key now).1 = false ↔
        Full ⟨1, 60, 2⟩ (run ⟨1, 60, 2⟩ earlier).2 key now ∨
          (run ⟨1, 60, 2⟩ earlier).1.events.find? key = none ∧
            Crowded ⟨1, 60, 2⟩ (run ⟨1, 60, 2⟩ earlier).2 key now) ∧
      ∀ due : ℕ → Bool, (allowWhen due ⟨1, 60, 2⟩ (runWhen due ⟨1, 60, 2⟩ earlier).1 key now).1 =
        (allow ⟨1, 60, 2⟩ (run ⟨1, 60, 2⟩ earlier).1 key now).1) ∧
    (∀ key a, (within (run ⟨1, 60, 2⟩ [("one", 0), ("two", 0), ("three", 0)]).2 key a
      (a + 60)).length ≤ 1) ∧
    (run ⟨1, 60, 2⟩ [("one", 0), ("two", 0), ("three", 0)]).1.events.rows.length ≤ 2 :=
  limiter_is_slidingLog ⟨1, 60, 2⟩ [("one", 0), ("two", 0), ("three", 0)] (by simp)

/-- The third key is refused and not tracked. -/
example : (run ⟨1, 60, 2⟩ [("one", 0), ("two", 0), ("three", 0)]).2 = [("one", 0), ("two", 0)] := by
  decide +kernel

end Run

end RateLimiter

end HistoryAnchor

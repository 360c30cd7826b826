import HistoryAnchor.Gateway.Limiter
import HistoryAnchor.Protocol.Codec
import HistoryAnchor.Python.IpAddress

/-! # Rate-limit identities

A write without a submission token is counted under the client's address. Behind a
trusted proxy that is the first element of `X-Forwarded-For`, which the client
writes itself when the proxy appends to the header.
-/

namespace HistoryAnchor

open Python Ip RateLimiter SlidingLog

namespace Clients

/-- What a request shows of its sender; headers are Latin-1 text. -/
structure Request where
  client : Option PyStr
  forwardedFor : Option PyStr
  submissionToken : Option PyStr
  deriving DecidableEq

structure Settings where
  canRelay : Bool
  requireSubmissionToken : Bool
  submissionTokens : List PyStr
  trustedProxyCidrs : List PyStr
  writeRequestsPerMinute : ℕ

/-- `hmac.compare_digest` of two texts. -/
def compareDigest (a b : PyStr) : Py Bool := do
  require (a.all (·.val < 128) ∧ b.all (·.val < 128)) .typeError
    "comparing strings with non-ASCII characters is not supported"
  return a = b

def constantTimeMember (value : PyStr) : List PyStr → Py Bool
  | [] => return false
  | candidate :: candidates => do
    let same ← compareDigest value candidate
    if same then return true else constantTimeMember value candidates

def requireSubmissionToken (request : Request) (required : Bool) (tokens : List PyStr) :
    Py (Option PyStr) := do
  let supplied := request.submissionToken.getD []
  let valid ← if supplied = [] then pure false else constantTimeMember supplied tokens
  if !required then return if valid then some supplied else none
  require (valid = true) .httpException "valid submission token required"
  return some supplied

def tokenRateKey (token : Option PyStr) : Option PyStr :=
  let token := token.getD []
  if token = [] then none else some ("token:" ++ (hex (sha256 ((utf8 token).getD []))).take 24)

/-- `any(peer_ip in ip_network(cidr, strict=False) for cidr in cidrs)`. -/
def anyContains (peer : IpAddress) : List PyStr → Option Bool
  | [] => some false
  | cidr :: cidrs => do
    let network ← ipNetwork cidr
    if network.contains peer then some true else anyContains peer cidrs

/-- The peer is a trusted proxy; a `ValueError` makes it none. -/
def trustedPeer (peer : PyStr) (trustedProxyCidrs : List PyStr) : Bool :=
  ((ipAddress peer).bind fun ip => anyContains ip trustedProxyCidrs).getD false

/-- The text before the first comma, without the space around it. -/
def firstElement (header : PyStr) : PyStr := strip (header.takeWhile (· ≠ 0x2C))

def trustedClientIp (request : Request) (trustedProxyCidrs : List PyStr) : PyStr :=
  let peer := request.client.getD "unknown"
  if trustedProxyCidrs = [] ∨ peer = "unknown" then peer
  else if !trustedPeer peer trustedProxyCidrs then peer
  else
    let candidate := firstElement (request.forwardedFor.getD [])
    if candidate = [] then peer
    else
      match ipAddress candidate with
      | some ip => ip.str
      | none => peer

def clientKey (settings : Settings) (request : Request) (submissionToken : Option PyStr) : PyStr :=
  match tokenRateKey submissionToken with
  | some key => key
  | none => "ip:" ++ trustedClientIp request settings.trustedProxyCidrs

def Settings.limits (settings : Settings) : Policy ℚ where
  requests := settings.writeRequestsPerMinute
  window := 60
  maxKeys := 100000

def requireRecordWrite (settings : Settings) (limiter : FixedWindowRateLimiter PyStr)
    (request : Request) (now : ℚ) : Py Unit × FixedWindowRateLimiter PyStr :=
  if !settings.canRelay then
    (raise .httpException "this node role does not accept records", limiter)
  else
    match requireSubmissionToken request settings.requireSubmissionToken
      settings.submissionTokens with
    | .error e => (.error e, limiter)
    | .ok token =>
      let (allowed, limiter) := allow settings.limits limiter (clientKey settings request token) now
      (require (allowed = true) .httpException "write rate limit exceeded", limiter)

/-- What comes to the limiter: a record to be written, or a request to an administrative route,
which is counted under a key of its own. -/
inductive Arrival
  | write (request : Request)
  | other (key : PyStr)

def arriveOnce (settings : Settings) (s : FixedWindowRateLimiter PyStr × List (Request × ℚ)) :
    Arrival × ℚ → FixedWindowRateLimiter PyStr × List (Request × ℚ)
  | (.write request, now) =>
    let (answer, limiter) := requireRecordWrite settings s.1 request now
    (limiter, if answer = .ok () then s.2 ++ [(request, now)] else s.2)
  | (.other key, now) => ((allow settings.limits s.1 key now).2, s.2)

/-- The limiter after some arrivals, with the log of the writes that were let through. -/
def serve (settings : Settings) (arrivals : List (Arrival × ℚ)) :
    FixedWindowRateLimiter PyStr × List (Request × ℚ) :=
  arrivals.foldl (arriveOnce settings) (initial, [])

variable {settings : Settings} {proxy address : PyStr} {sent sent' : Option PyStr}
  {token : Option PyStr} {request : Request} {arrivals : List (Arrival × ℚ)} {now : ℚ}

/-- The header that a proxy passes on when it appends the client's address to what was sent. -/
def appended (sent : Option PyStr) (address : PyStr) : PyStr :=
  match sent with
  | none => address
  | some value => value ++ ", " ++ address

def via (proxy address : PyStr) (sent token : Option PyStr) : Request where
  client := some proxy
  forwardedFor := some (appended sent address)
  submissionToken := token

/-- The address that leads what the client sent, or the proxy's own if none does. -/
def leading (proxy address : PyStr) (sent : Option PyStr) : PyStr :=
  ((ipAddress (firstElement (sent.getD address))).map IpAddress.str).getD proxy

theorem firstElement_appended : firstElement (appended sent address) =
    firstElement (sent.getD address) := by
  cases sent with
  | none => rfl
  | some value =>
    have htail : (", " ++ address).takeWhile (· ≠ 0x2C) = [] := rfl
    rw [firstElement, appended, List.append_assoc, List.takeWhile_append, htail, List.append_nil,
      Option.getD_some, firstElement]
    split_ifs with hlength
    · rw [(List.takeWhile_prefix _).eq_of_length hlength]
    · rfl

theorem trustedPeer_nil : trustedPeer proxy [] = false := by
  rw [trustedPeer]
  cases ipAddress proxy <;> rfl

theorem trustedPeer_unknown {cidrs : List PyStr} : trustedPeer "unknown" cidrs = false := by
  have hnone : ipAddress "unknown" = none := by decide +kernel
  rw [trustedPeer, hnone]
  rfl

/-- Behind a trusted proxy that appends, the address is the one that leads what was sent. -/
theorem trustedClientIp_via : trustedClientIp (via proxy address sent token)
    settings.trustedProxyCidrs = if trustedPeer proxy settings.trustedProxyCidrs
      then leading proxy address sent else proxy := by
  have hpeer : (via proxy address sent token).client.getD "unknown" = proxy := rfl
  have hheader : (via proxy address sent token).forwardedFor.getD [] = appended sent address := rfl
  rw [trustedClientIp, hpeer, hheader, firstElement_appended]
  cases htrusted : trustedPeer proxy settings.trustedProxyCidrs with
  | false =>
    simp only [Bool.not_false, if_true, ite_self, Bool.false_eq_true, if_false]
  | true =>
    have hconfigured : ¬(settings.trustedProxyCidrs = [] ∨ proxy = "unknown") := by
      rintro (h | rfl)
      · rw [h, trustedPeer_nil] at htrusted
        cases htrusted
      · rw [trustedPeer_unknown] at htrusted
        cases htrusted
    have hempty : ipAddress [] = none := by decide +kernel
    rw [if_neg hconfigured, if_pos rfl, leading]
    simp only [Bool.not_true, Bool.false_eq_true, if_false]
    split_ifs with hcandidate
    · rw [hcandidate, hempty]
      rfl
    · cases ipAddress (firstElement (sent.getD address)) <;> rfl

theorem clientKey_via : clientKey settings (via proxy address sent token) none =
    "ip:" ++ if trustedPeer proxy settings.trustedProxyCidrs
      then leading proxy address sent else proxy :=
  congrArg (ascii "ip:" ++ ·) trustedClientIp_via

/-- Two values give one key exactly if the proxy is not trusted or one address leads them both. -/
theorem clientKey_via_eq_iff : clientKey settings (via proxy address sent token) none =
      clientKey settings (via proxy address sent' token) none ↔
    trustedPeer proxy settings.trustedProxyCidrs = false ∨
      leading proxy address sent = leading proxy address sent' := by
  rw [clientKey_via, clientKey_via, List.append_cancel_left_eq]
  cases trustedPeer proxy settings.trustedProxyCidrs with
  | false => exact iff_of_true rfl (Or.inl rfl)
  | true =>
    rw [if_pos rfl, if_pos rfl, or_iff_right Bool.true_eq_false.mp]

/-- The key under which the limiter counts a request, if it gets that far. -/
def countedUnder (settings : Settings) (request : Request) : Option PyStr :=
  if settings.canRelay then
    (requireSubmissionToken request settings.requireSubmissionToken
      settings.submissionTokens).toOption.map (clientKey settings request)
  else none

def Arrival.key (settings : Settings) : Arrival → Option PyStr
  | .write request => countedUnder settings request
  | .other key => some key

def limiterCalls (settings : Settings) (arrivals : List (Arrival × ℚ)) : List (PyStr × ℚ) :=
  arrivals.filterMap fun w => (w.1.key settings).map fun key => (key, w.2)

def writeCalls (settings : Settings) (writes : List (Request × ℚ)) : List (PyStr × ℚ) :=
  writes.filterMap fun w => (countedUnder settings w.1).map fun key => (key, w.2)

theorem countedUnder_eq_some {key : PyStr} : countedUnder settings request = some key ↔
    settings.canRelay = true ∧ ∃ token, requireSubmissionToken request
      settings.requireSubmissionToken settings.submissionTokens = .ok token ∧
        clientKey settings request token = key := by
  rw [countedUnder]
  split_ifs with hrelay
  · rw [and_iff_right hrelay]
    cases requireSubmissionToken request settings.requireSubmissionToken
      settings.submissionTokens with
    | error e => exact iff_of_false (fun h => nomatch h) fun ⟨_, h, _⟩ => nomatch h
    | ok token =>
      rw [Except.toOption, Option.map_some, Option.some.injEq]
      exact ⟨fun h => ⟨token, rfl, h⟩, fun ⟨_, ht, h⟩ => Except.ok.inj ht ▸ h⟩
  · exact iff_of_false (fun h => nomatch h) fun h => hrelay h.1

theorem requireRecordWrite_of_counted {limiter : FixedWindowRateLimiter PyStr} {key : PyStr}
    (h : countedUnder settings request = some key) :
    requireRecordWrite settings limiter request now =
      (require ((allow settings.limits limiter key now).1 = true) .httpException
        "write rate limit exceeded", (allow settings.limits limiter key now).2) := by
  obtain ⟨hrelay, token, htoken, rfl⟩ := countedUnder_eq_some.mp h
  rw [requireRecordWrite, hrelay, htoken]
  rfl

theorem requireRecordWrite_of_not_counted {limiter : FixedWindowRateLimiter PyStr}
    (h : countedUnder settings request = none) :
    ∃ e, requireRecordWrite settings limiter request now = (.error e, limiter) := by
  rw [requireRecordWrite]
  cases hrelay : settings.canRelay with
  | false => exact ⟨_, rfl⟩
  | true =>
    cases htoken : requireSubmissionToken request settings.requireSubmissionToken
      settings.submissionTokens with
    | error e => exact ⟨e, rfl⟩
    | ok token =>
      rw [countedUnder_eq_some.mpr ⟨hrelay, token, htoken, rfl⟩] at h
      cases h

theorem limiterCalls_append (as as' : List (Arrival × ℚ)) :
    limiterCalls settings (as ++ as') = limiterCalls settings as ++ limiterCalls settings as' :=
  List.filterMap_append

theorem writeCalls_append (ws ws' : List (Request × ℚ)) :
    writeCalls settings (ws ++ ws') = writeCalls settings ws ++ writeCalls settings ws' :=
  List.filterMap_append

theorem limiterCalls_singleton {w : Arrival × ℚ} {key : PyStr} (h : w.1.key settings = some key) :
    limiterCalls settings [w] = [(key, w.2)] := by
  rw [limiterCalls, List.filterMap_cons, h]
  rfl

theorem serve_append_singleton (w : Arrival × ℚ) :
    serve settings (arrivals ++ [w]) = arriveOnce settings (serve settings arrivals) w :=
  List.foldl_append

/-- The limiter of a run is that of the calls that the arrivals make, and it has allowed the calls
of the writes that were let through. -/
theorem serve_calls (settings : Settings) (arrivals : List (Arrival × ℚ)) :
    (serve settings arrivals).1 = (run settings.limits (limiterCalls settings arrivals)).1 ∧
      (writeCalls settings (serve settings arrivals).2).Sublist
        (run settings.limits (limiterCalls settings arrivals)).2 := by
  induction arrivals using List.reverseRecOn with
  | nil => exact ⟨rfl, List.Sublist.refl _⟩
  | append_singleton arrivals w ih =>
    obtain ⟨hlimiter, hlog⟩ := ih
    have hcall : ∀ key, w.1.key settings = some key →
        run settings.limits (limiterCalls settings (arrivals ++ [w])) =
          ((allow settings.limits (serve settings arrivals).1 key w.2).2,
            if (allow settings.limits (serve settings arrivals).1 key w.2).1
              then (run settings.limits (limiterCalls settings arrivals)).2 ++ [(key, w.2)]
              else (run settings.limits (limiterCalls settings arrivals)).2) := by
      intro key hkey
      rw [limiterCalls_append, limiterCalls_singleton hkey, run, runWhen_append_singleton, ← run,
        callOnce, hlimiter]
      rfl
    rw [serve_append_singleton]
    obtain ⟨arrival, now⟩ := w
    cases arrival with
    | other key =>
      rw [hcall key rfl, arriveOnce]
      refine ⟨rfl, hlog.trans ?_⟩
      split_ifs
      · exact List.sublist_append_left _ _
      · exact List.Sublist.refl _
    | write request =>
      rw [arriveOnce]
      cases hcounted : countedUnder settings request with
      | none =>
        obtain ⟨e, he⟩ := @requireRecordWrite_of_not_counted settings request now
          (serve settings arrivals).1 hcounted
        have hcalls : limiterCalls settings [(.write request, now)] = [] := by
          rw [limiterCalls, List.filterMap_cons, Arrival.key, hcounted]
          rfl
        rw [he, limiterCalls_append, hcalls, List.append_nil]
        exact ⟨hlimiter, hlog⟩
      | some key =>
        have hcalls : writeCalls settings [(request, now)] = [(key, now)] := by
          rw [writeCalls, List.filterMap_cons, hcounted]
          rfl
        rw [hcall key hcounted, requireRecordWrite_of_counted hcounted]
        refine ⟨rfl, ?_⟩
        dsimp only
        generalize (allow settings.limits (serve settings arrivals).1 key now).1 = allowed
        cases allowed with
        | false => exact hlog
        | true =>
          change (writeCalls settings ((serve settings arrivals).2 ++ [(request, now)])).Sublist
            ((run settings.limits (limiterCalls settings arrivals)).2 ++ [(key, now)])
          rw [writeCalls_append, hcalls]
          exact hlog.append (List.Sublist.refl _)

theorem serve_of_not_canRelay (hrelay : settings.canRelay = false) :
    (serve settings arrivals).2 = [] := by
  induction arrivals using List.reverseRecOn with
  | nil => rfl
  | append_singleton arrivals w ih =>
    rw [serve_append_singleton]
    obtain ⟨arrival, now⟩ := w
    cases arrival with
    | write request =>
      rw [arriveOnce, requireRecordWrite, hrelay]
      exact ih
    | other key => exact ih

theorem times_limiterCalls_sublist : ((limiterCalls settings arrivals).map Prod.snd).Sublist
    (arrivals.map Prod.snd) := by
  induction arrivals with
  | nil => exact List.Sublist.refl _
  | cons w ws ih =>
    rw [limiterCalls, List.filterMap_cons]
    cases w.1.key settings with
    | none => exact ih.cons _
    | some key => exact ih.cons_cons _

/-- Writes that are counted under one key are not let through more often than the limit. -/
theorem length_served_le (harrivals : (arrivals.map Prod.snd).Pairwise (· ≤ ·)) {a : ℚ}
    {key : PyStr} {ws : List (Request × ℚ)} (hsub : ws.Sublist (serve settings arrivals).2)
    (hws : ∀ w ∈ ws, countedUnder settings w.1 = some key ∧ a < w.2 ∧ w.2 ≤ a + 60) :
    ws.length ≤ settings.writeRequestsPerMinute := by
  have hcalls : writeCalls settings ws = ws.map fun w => (key, w.2) := by
    clear hsub
    induction ws with
    | nil => rfl
    | cons w ws ih =>
      obtain ⟨hw, hrest⟩ := List.forall_mem_cons.mp hws
      rw [writeCalls, List.filterMap_cons, hw.1, Option.map_some, ← writeCalls, ih hrest,
        List.map_cons]
  have hlog : (ws.map fun w => (key, w.2)).Sublist
      (run settings.limits (limiterCalls settings arrivals)).2 := by
    rw [← hcalls]
    exact (hsub.filterMap _).trans (serve_calls settings arrivals).2
  have hwithin : within (ws.map fun w => (key, w.2)) key a (a + 60) = ws.map Prod.snd := by
    have hkeys : (ws.map fun w => (key, w.2)).filter (·.1 = key) = ws.map fun w => (key, w.2) := by
      rw [List.filter_eq_self]
      intro c hc
      obtain ⟨w, -, rfl⟩ := List.mem_map.mp hc
      exact decide_eq_true rfl
    rw [within, times, hkeys, List.map_map, List.filter_eq_self.mpr]
    · rfl
    · intro t ht
      obtain ⟨w, hw, rfl⟩ := List.mem_map.mp ht
      exact decide_eq_true (hws w hw).2
  calc ws.length
      = (within (ws.map fun w => (key, w.2)) key a (a + 60)).length := by
        rw [hwithin, List.length_map]
    _ ≤ (within (run settings.limits (limiterCalls settings arrivals)).2 key a (a + 60)).length :=
        (((hlog.filter _).map _).filter _).length_le
    _ ≤ settings.writeRequestsPerMinute :=
        length_within_run_le settings.limits (harrivals.sublist times_limiterCalls_sublist) key a

/-- Through a proxy that appends, two header values of one client address are counted under one key
exactly if the proxy is not trusted or one address leads them both. Requests whose values agree so
are let through as often as the limit says, in every run and every window. -/
theorem clientKey_via_iff (settings : Settings) (proxy address : PyStr) :
    (∀ sent sent', clientKey settings (via proxy address sent none) none =
        clientKey settings (via proxy address sent' none) none ↔
      trustedPeer proxy settings.trustedProxyCidrs = false ∨
        leading proxy address sent = leading proxy address sent') ∧
    ∀ arrivals : List (Arrival × ℚ), (arrivals.map Prod.snd).Pairwise (· ≤ ·) →
      ∀ (a : ℚ) (value : PyStr), ∀ ws : List (Request × ℚ), ws.Sublist (serve settings arrivals).2 →
        (∀ w ∈ ws, (a < w.2 ∧ w.2 ≤ a + 60) ∧ ∃ sent token,
          w.1 = via proxy address sent token ∧
          requireSubmissionToken w.1 settings.requireSubmissionToken settings.submissionTokens =
            .ok none ∧
          (trustedPeer proxy settings.trustedProxyCidrs = false ∨
            leading proxy address sent = value)) →
        ws.length ≤ settings.writeRequestsPerMinute := by
  refine ⟨fun sent sent' => clientKey_via_eq_iff, fun arrivals harrivals a value ws hsub hws => ?_⟩
  have hkey : ∀ sent token, (trustedPeer proxy settings.trustedProxyCidrs = false ∨
      leading proxy address sent = value) → clientKey settings (via proxy address sent token) none =
        "ip:" ++ if trustedPeer proxy settings.trustedProxyCidrs then value else proxy := by
    rintro sent token (h | h)
    · rw [clientKey_via, h]
      rfl
    · rw [clientKey_via, h]
  refine @length_served_le settings arrivals harrivals a
    ("ip:" ++ if trustedPeer proxy settings.trustedProxyCidrs then value else proxy) ws hsub
    fun w hw => ?_
  obtain ⟨hwindow, sent, token, hvia, htoken, hagree⟩ := hws w hw
  have hrelay : settings.canRelay = true := by
    rw [← Bool.not_eq_false]
    intro hfalse
    have hmem := hsub.subset hw
    rw [serve_of_not_canRelay hfalse] at hmem
    exact absurd hmem List.not_mem_nil
  refine ⟨countedUnder_eq_some.mpr ⟨hrelay, none, htoken, ?_⟩, hwindow⟩
  rw [hvia]
  exact hkey sent token hagree

def proxiedSettings : Settings where
  canRelay := true
  requireSubmissionToken := false
  submissionTokens := []
  trustedProxyCidrs := ["127.0.0.0/8"]
  writeRequestsPerMinute := 1

/-- A client's requests, which differ in the header that it sends. -/
def spoofed (sent : PyStr) : Request := via "127.0.0.1" "203.0.113.9" (some sent) none

/-- An administrative request, and a client that repeats its request. -/
def repeated : List (Arrival × ℚ) :=
  [(.other "admin:127.0.0.1", 0), (.write (spoofed "198.51.100.1"), 0),
    (.write (spoofed "198.51.100.1"), 1)]

theorem clientKey_via_iff_sample :
    (clientKey proxiedSettings (spoofed "198.51.100.1") none =
        clientKey proxiedSettings (spoofed "198.51.100.2") none ↔
      trustedPeer "127.0.0.1" proxiedSettings.trustedProxyCidrs = false ∨
        leading "127.0.0.1" "203.0.113.9" (some "198.51.100.1") =
          leading "127.0.0.1" "203.0.113.9" (some "198.51.100.2")) ∧
    [(spoofed "198.51.100.1", (0 : ℚ))].length ≤ 1 := by
  constructor
  · exact (clientKey_via_iff proxiedSettings "127.0.0.1" "203.0.113.9").1 (some "198.51.100.1")
      (some "198.51.100.2")
  · have hserved : (serve proxiedSettings repeated).2 = [(spoofed "198.51.100.1", 0)] := by
      decide +kernel
    apply (clientKey_via_iff proxiedSettings "127.0.0.1" "203.0.113.9").2 repeated
      (by decide +kernel) (-60) "198.51.100.1" _ (hserved ▸ List.Sublist.refl _)
    intro w hw
    obtain rfl := List.mem_singleton.mp hw
    refine ⟨by decide +kernel, some "198.51.100.1", none, rfl, rfl, Or.inr ?_⟩
    decide +kernel

/-- One client address writes twice in a minute where it may write once. -/
theorem spoofed_key_differs :
    trustedPeer "127.0.0.1" proxiedSettings.trustedProxyCidrs = true ∧
    requireSubmissionToken (spoofed "198.51.100.1") false [] = .ok none ∧
    requireSubmissionToken (spoofed "198.51.100.2") false [] = .ok none ∧
    clientKey proxiedSettings (spoofed "198.51.100.1") none ≠
      clientKey proxiedSettings (spoofed "198.51.100.2") none ∧
    (serve proxiedSettings [(.write (spoofed "198.51.100.1"), 0),
      (.write (spoofed "198.51.100.2"), 0)]).2 =
        [(spoofed "198.51.100.1", 0), (spoofed "198.51.100.2", 0)] := by
  refine ⟨by decide +kernel, rfl, rfl, by decide +kernel, ?_⟩
  decide +kernel

end Clients

end HistoryAnchor

import Cachebox.Server.Framing
import Cachebox.Server.ResponseSize
import Cachebox.Sharded.Cost
import Cachebox.Sharded.Transparent

/-!
# The metrics and the admin server (`Metrics`, `handle_request`, `metrics_response`)

A counter is spread over shards, such that requests at the same time do not contend for it, and a
snapshot adds the shards up. The handlers of the native protocol and of the admin server count as
they go. What `/metrics` reports is compared with what has been asked of the server and what it has
answered, whatever connections and requests there were.
-/

namespace Cachebox

namespace Server
open Protocol

/-! ## The admin server -/

inductive HttpMethod where
  | get
  | other (name : String)
  deriving DecidableEq

/-- A response, apart from its headers. -/
structure HttpResponse where
  status : Nat
  body : String
  deriving DecidableEq

def healthRoute : String := "/healthz"
def metricsRoute : String := "/metrics"

/-- `Metrics::admin_shard`. -/
def adminShard : Fin metricShardCount := ⟨0, by decide⟩

/-- A line of the text format. -/
inductive MetricsLine where
  | comment (text : String)
  | sample (name : String) (value : Nat)
  deriving DecidableEq

def MetricsLine.text : MetricsLine → String
  | .comment text => "# " ++ text ++ "\n"
  | .sample name value => name ++ " " ++ toString value ++ "\n"

namespace AppState
variable {n : Nat} (state : AppState n)

/-- `Metrics::snapshot`, at one counter. -/
def snapshot (counter : Counter) : UInt64 :=
  ((List.finRange metricShardCount).map fun shard => state.metrics shard counter).foldl
    UInt64.saturatingAdd 0

/-- What `metrics_response` prints. -/
def metricsLines (costScoreTotal : UInt64) : List MetricsLine :=
  [ .comment "HELP cachebox_requests_total Total admin HTTP requests handled.",
    .comment "TYPE cachebox_requests_total counter",
    .sample "cachebox_requests_total" (state.snapshot .requestsTotal).toNat,
    .sample "cachebox_requests_health_total" (state.snapshot .healthRequests).toNat,
    .sample "cachebox_requests_get_total" (state.snapshot .getRequests).toNat,
    .sample "cachebox_requests_put_total" (state.snapshot .putRequests).toNat,
    .sample "cachebox_requests_delete_total" (state.snapshot .deleteRequests).toNat,
    .sample "cachebox_requests_batch_get_total" (state.snapshot .batchGetRequests).toNat,
    .sample "cachebox_requests_tag_invalidate_total" (state.snapshot .tagInvalidateRequests).toNat,
    .comment "HELP cachebox_cache_hits_total Cache hit outcomes.",
    .comment "TYPE cachebox_cache_hits_total counter",
    .sample "cachebox_cache_hits_total" (state.snapshot .hitsTotal).toNat,
    .sample "cachebox_cache_misses_total" (state.snapshot .missesTotal).toNat,
    .sample "cachebox_cache_stale_total" (state.snapshot .staleTotal).toNat,
    .sample "cachebox_lease_grants_total" (state.snapshot .leaseGrants).toNat,
    .sample "cachebox_lease_denials_total" (state.snapshot .leaseDenials).toNat,
    .sample "cachebox_errors_total" (state.snapshot .errorsTotal).toNat,
    .sample "cachebox_expirations_total" state.engine.stats.expirations,
    .sample "cachebox_evictions_total" state.engine.stats.evictions,
    .sample "cachebox_memory_used_bytes" state.engine.memoryUsedBytes,
    .sample "cachebox_memory_limit_bytes" state.engine.limits.maxMemoryBytes,
    .sample "cachebox_cost_score_total" costScoreTotal.toNat,
    .sample "cachebox_connections_current" 0 ]

/-- `metrics_response`. There is no response if the sum of the costs overflows. -/
def metricsResponse : Option HttpResponse :=
  state.engine.costScoreTotal.map fun costScoreTotal =>
    ⟨200, String.join ((state.metricsLines costScoreTotal).map MetricsLine.text)⟩

/-- `handle_request`. -/
def handleRequest (method : HttpMethod) (path : String) : Option HttpResponse × AppState n :=
  if method = .get ∧ path = metricsRoute then
    (state.metricsResponse, state)
  else if method = .get ∧ path = healthRoute then
    (some ⟨200, "ok"⟩, (state.count adminShard .requestsTotal).count adminShard .healthRequests)
  else
    (some ⟨404, "HTTP is admin-only; use the native socket protocol for cache operations"⟩,
      (state.count adminShard .requestsTotal).count adminShard .errorsTotal)

end AppState

/-- What the server is asked to do. -/
inductive Activity where
  | native (action : Action)
  | http (method : HttpMethod) (path : String)

section
variable {n : Nat} [NeZero n] (hash : String → Bytes → Nat) (maxPayloadLen : Nat)

def AppState.serve (state : AppState n) : Activity → Unit × AppState n
  | .native action => ((), (state.step hash maxPayloadLen action).2)
  | .http method path => ((), (state.handleRequest method path).2)

end

/-! ## What should be counted -/

/-- The counter of a command. Leases have none. -/
def commandCounter : Command → Option Counter
  | .get => some .getRequests
  | .put => some .putRequests
  | .delete => some .deleteRequests
  | .batchGet => some .batchGetRequests
  | .tagInvalidate => some .tagInvalidateRequests
  | .leaseStart | .leaseComplete => none

def itemCounter : BatchItem → Counter
  | .hit _ => .hitsTotal
  | .stale _ => .staleTotal
  | .miss => .missesTotal

/-- The counters of an answer. -/
def answerCounters : ResponsePayload → List Counter
  | .hit _ => [.hitsTotal]
  | .stale _ => [.staleTotal]
  | .miss => [.missesTotal]
  | .batchGet items => items.map itemCounter
  | .leaseGranted .. => [.leaseGrants]
  | .leaseDenied => [.leaseDenials]
  | .error .. => [.errorsTotal]
  | _ => []

/-- What a request and its answer add to the counters. -/
def requestCounters (request : RequestPayload) (answer : ResponsePayload) : List Counter :=
  (commandCounter request.command).toList ++ answerCounters answer

/-- How many keys a request looks up. -/
def lookups : RequestPayload → Nat
  | .get .. | .leaseStart .. => 1
  | .batchGet _ keys => keys.length
  | _ => 0

/-- The counters that tell how a lookup ended. -/
def Counter.ofLookup : Counter → Bool
  | .hitsTotal | .staleTotal | .missesTotal | .leaseGrants | .leaseDenials => true
  | _ => false

section
variable {n : Nat} [NeZero n] (hash : String → Bytes → Nat) (maxPayloadLen : Nat)

/-- The request that an activity has the engine execute, with its answer. A frame that is not
decoded has none. -/
def Activity.executed (state : AppState n) : Activity → Option (RequestPayload × ResponsePayload)
  | .native (.frame o _ bytes) =>
    match decodeRequestFrame bytes maxPayloadLen with
    | .ok request => some (request.payload,
        outcomeResponse (state.engine.exec hash (requestOp o request.payload)).1)
    | .error _ => none
  | _ => none

/-- What an activity adds to the counters. A scrape adds nothing. -/
def Activity.counters (state : AppState n) (activity : Activity) : List Counter :=
  match activity with
  | .native _ =>
    match activity.executed hash maxPayloadLen state with
    | some (request, answer) => requestCounters request answer
    | none => []
  | .http method path =>
    if method = .get ∧ path = metricsRoute then []
    else if method = .get ∧ path = healthRoute then [.requestsTotal, .healthRequests]
    else [.requestsTotal, .errorsTotal]

abbrev Event (n : Nat) := Machine.Event (AppState n) Activity Unit

def Event.counters (ev : Event n) : List Counter :=
  ev.action.counters hash maxPayloadLen ev.before

def Event.lookups (ev : Event n) : Nat :=
  match ev.action.executed hash maxPayloadLen ev.before with
  | some (request, _) => Server.lookups request
  | none => 0

end

/-! ## What is counted -/

section
variable {n : Nat}

/-- The state after counting one by one. -/
def AppState.countAll (state : AppState n) (shard : Fin metricShardCount)
    (counters : List Counter) : AppState n :=
  counters.foldl (fun state counter => state.count shard counter) state

/-- The metrics are those of the log, which has the counter and the shard of each count. -/
def AppState.Tallied (log : List (Fin metricShardCount × Counter)) (state : AppState n) : Prop :=
  ∀ shard counter, state.metrics shard counter = .ofNat (log.count (shard, counter))

variable {state state' : AppState n} {log log' : List (Fin metricShardCount × Counter)}
  {shard : Fin metricShardCount}

theorem metrics_countAll_congr (h : state.metrics = state'.metrics) (counters : List Counter) :
    (state.countAll shard counters).metrics = (state'.countAll shard counters).metrics := by
  induction counters generalizing state state' with
  | nil => exact h
  | cons counter counters ih =>
    refine ih ?_
    simp only [AppState.count, h]

theorem tallied_fromConfig (clocks : Fin n → Clock) (limits : EngineLimits) :
    (AppState.fromConfig clocks limits).Tallied [] := fun _ _ => rfl

theorem AppState.Tallied.perm (h : state.Tallied log) (hperm : log.Perm log') :
    state.Tallied log' := by
  intro shard counter
  rw [h shard counter, hperm.count_eq]

theorem AppState.Tallied.of_metrics (h : state.Tallied log)
    (hmetrics : state'.metrics = state.metrics) : state'.Tallied log := by
  intro shard counter
  rw [hmetrics, h shard counter]

theorem AppState.Tallied.count (h : state.Tallied log) (shard : Fin metricShardCount)
    (counter : Counter) : (state.count shard counter).Tallied ((shard, counter) :: log) := by
  intro shard' counter'
  simp only [AppState.count, List.count_cons]
  by_cases hshard : shard' = shard
  · subst hshard
    by_cases hcounter : counter' = counter
    · subst hcounter
      simp [h shard' counter', UInt64.ofNat_add]
    · simp [hcounter, Ne.symm hcounter, h shard' counter']
  · simp [hshard, Ne.symm hshard, h shard' counter']

theorem AppState.Tallied.countAll (h : state.Tallied log) (shard : Fin metricShardCount)
    (counters : List Counter) :
    (state.countAll shard counters).Tallied (counters.map (Prod.mk shard) ++ log) := by
  induction counters generalizing state log with
  | nil => exact h
  | cons counter counters ih =>
    refine (ih (h.count shard counter)).perm ?_
    exact List.perm_middle

theorem batchItems_countAll (outcomes : List GetOutcome) (state : AppState n) :
    (batchItems shard outcomes state).2 =
      state.countAll shard ((outcomes.map batchItem).map itemCounter) := by
  induction outcomes generalizing state with
  | nil => rfl
  | cons outcome outcomes ih =>
    cases outcome with
    | hit | stale | miss => exact ih _

variable [NeZero n] {hash : String → Bytes → Nat} {maxPayloadLen : Nat} {o : IterOrder}

/-- The handlers count the request and its answer. -/
theorem metrics_executeNativePayloadWithMetrics (state : AppState n)
    (shard : Fin metricShardCount) (payload : RequestPayload) :
    (executeNativePayloadWithMetrics hash o state shard payload).2.metrics =
      (state.countAll shard (requestCounters payload
        (outcomeResponse (state.engine.exec hash (requestOp o payload)).1))).metrics := by
  cases payload with
  | get ns key =>
    simp only [executeNativePayloadWithMetrics, executeNativeGet, AppState.onEngine,
      AppState.engine_count, ShardedEngine.exec, requestOp]
    rcases state.engine.get hash ns key with ⟨_ | _ | _, engine⟩ <;> rfl
  | put ns key metadata value =>
    simp only [executeNativePayloadWithMetrics, executeNativePut, AppState.onEngine,
      AppState.engine_count, ShardedEngine.exec, requestOp]
    rcases state.engine.put hash o (nativePutCommand ns key metadata value) with
      ⟨error | _, engine⟩
    · cases error <;> rfl
    · rfl
  | delete ns key => rfl
  | batchGet ns keys =>
    refine (congrArg AppState.metrics (batchItems_countAll _ _)).trans ?_
    show _ = ((state.count shard .batchGetRequests).countAll shard
      (((state.engine.batchGet hash ns keys).1.map batchItem).map itemCounter)).metrics
    refine metrics_countAll_congr ?_ _
    rfl
  | tagInvalidate ns tag => rfl
  | leaseStart ns key leaseTtlMs allowStaleMs =>
    simp only [executeNativePayloadWithMetrics, executeNativeLeaseStart, AppState.onEngine,
      ShardedEngine.exec, requestOp]
    rcases state.engine.startLease hash ns key leaseTtlMs with ⟨_ | _ | _ | _, engine⟩ <;> rfl
  | leaseComplete ns key leaseToken metadata value =>
    simp only [executeNativePayloadWithMetrics, executeNativeLeaseComplete, AppState.onEngine,
      ShardedEngine.exec, requestOp]
    rcases state.engine.completeLease hash o
      (nativeCompleteLeaseCommand ns key leaseToken metadata value) with
      ⟨(_ | error) | _, engine⟩
    · rfl
    · cases error <;> rfl
    · rfl

/-- An activity counts what it should, all in one shard. -/
theorem exists_shard_serve (state : AppState n) (activity : Activity) :
    ∃ shard, (state.serve hash maxPayloadLen activity).2.metrics =
      (state.countAll shard (activity.counters hash maxPayloadLen state)).metrics := by
  cases activity with
  | native action =>
    cases action with
    | frame o connectionId bytes =>
      simp only [AppState.serve, AppState.step, Activity.counters, Activity.executed]
      cases hdecode : decodeRequestFrame bytes maxPayloadLen with
      | ok request =>
        refine ⟨shardForRequest connectionId request.requestId, ?_⟩
        rw [executeNativeFrameBytesInto_of_ok hdecode]
        exact metrics_executeNativePayloadWithMetrics state _ request.payload
      | error e =>
        refine ⟨adminShard, ?_⟩
        rw [executeNativeFrameBytesInto_of_error hdecode]
        rfl
    | expirationTick => exact ⟨adminShard, rfl⟩
  | http method path =>
    refine ⟨adminShard, ?_⟩
    simp only [AppState.serve, AppState.handleRequest, Activity.counters]
    split_ifs
    · rfl
    · rfl
    · rfl

theorem AppState.Tallied.serve (h : state.Tallied log) (activity : Activity) :
    ∃ log', (state.serve hash maxPayloadLen activity).2.Tallied log' ∧
      log'.map Prod.snd = activity.counters hash maxPayloadLen state ++ log.map Prod.snd := by
  obtain ⟨shard, hshard⟩ := exists_shard_serve state activity
  refine ⟨_, (h.countAll shard _).of_metrics hshard, ?_⟩
  simp [Function.comp_def]

/-- The counts of a run, with the shards that they went to. -/
theorem exists_log (hash : String → Bytes → Nat) (maxPayloadLen : Nat) (clocks : Fin n → Clock)
    (limits : EngineLimits) (activities : List Activity) :
    ∃ log, (Machine.run (AppState.serve hash maxPayloadLen) (.fromConfig clocks limits)
        activities).Tallied log ∧
      log.map Prod.snd = (Machine.history (AppState.serve hash maxPayloadLen)
        (.fromConfig clocks limits) activities).flatMap (Event.counters hash maxPayloadLen) := by
  induction activities using List.reverseRecOn with
  | nil => exact ⟨[], tallied_fromConfig clocks limits, rfl⟩
  | append_singleton activities activity ih =>
    obtain ⟨log, htallied, hlog⟩ := ih
    obtain ⟨log', htallied', hlog'⟩ := htallied.serve activity
    refine ⟨log', ?_, ?_⟩
    · rw [Machine.run_concat]
      exact htallied'
    · rw [Machine.history_concat, List.flatMap_cons, ← hlog]
      exact hlog'

omit [NeZero n] in
/-- The counts in all shards together. -/
theorem sum_count_shards {k : Nat} (log : List (Fin k × Counter)) (counter : Counter) :
    ((List.finRange k).map fun shard => log.count (shard, counter)).sum =
      (log.map Prod.snd).count counter := by
  rw [← Fin.sum_univ_def]
  induction log with
  | nil => simp
  | cons entry log ih =>
    obtain ⟨shard, counted⟩ := entry
    simp only [List.count_cons, List.map_cons, Finset.sum_add_distrib, ih]
    congr 1
    by_cases hcounter : counted = counter
    · simp [hcounter]
    · simp [hcounter]

omit [NeZero n] in
theorem toNat_snapshot (h : state.Tallied log) {counter : Counter}
    (hfew : (log.map Prod.snd).count counter < 2 ^ 64) :
    (state.snapshot counter).toNat = (log.map Prod.snd).count counter := by
  have hle : ∀ shard, log.count (shard, counter) ≤ (log.map Prod.snd).count counter :=
    fun shard => List.count_le_count_map (f := Prod.snd)
  have hshards : ∀ shard, (state.metrics shard counter).toNat = log.count (shard, counter) := by
    intro shard
    rw [h shard counter, UInt64.toNat_ofNat_of_le]
    have := hle shard
    simp only [UInt64.maxNat]
    omega
  rw [AppState.snapshot, UInt64.toNat_foldl_saturatingAdd, List.map_map]
  simp only [Function.comp_def, hshards, sum_count_shards, UInt64.toNat_zero, UInt64.maxNat]
  omega

/-! ## Lookups -/

omit [NeZero n] in
theorem countP_ofLookup (counters : List Counter) :
    counters.countP Counter.ofLookup =
      counters.count .hitsTotal + counters.count .staleTotal + counters.count .missesTotal +
        counters.count .leaseGrants + counters.count .leaseDenials := by
  induction counters with
  | nil => rfl
  | cons counter counters ih =>
    simp only [List.countP_cons, List.count_cons, ih]
    cases counter <;> simp [Counter.ofLookup] <;> omega

omit [NeZero n] in
theorem countP_itemCounter (items : List BatchItem) :
    (items.map itemCounter).countP Counter.ofLookup = items.length := by
  induction items with
  | nil => rfl
  | cons item items ih =>
    rw [List.map_cons, List.countP_cons, ih, List.length_cons]
    cases item <;> rfl

theorem length_outcomes_batchGet (hash : String → Bytes → Nat) (ns : String) (keys : List Bytes)
    (s : ShardedEngine n) : (ShardedEngine.batchGet hash ns keys s).1.length = keys.length := by
  induction keys generalizing s with
  | nil => rfl
  | cons key keys ih =>
    simp only [ShardedEngine.batchGet, List.length_cons, ih]

/-- Each lookup ends in one way. -/
theorem countP_requestCounters (s : ShardedEngine n) (payload : RequestPayload) :
    (requestCounters payload (outcomeResponse (s.exec hash (requestOp o payload)).1)).countP
      Counter.ofLookup = lookups payload := by
  cases payload with
  | get ns key =>
    simp only [requestOp, ShardedEngine.exec]
    rcases s.get hash ns key with ⟨_ | _ | _, _⟩ <;> rfl
  | put ns key metadata value =>
    simp only [requestOp, ShardedEngine.exec]
    rcases s.put hash o (nativePutCommand ns key metadata value) with ⟨error | _, _⟩
    · cases error <;> rfl
    · rfl
  | delete | tagInvalidate => rfl
  | batchGet ns keys =>
    show List.countP _ (Counter.batchGetRequests ::
      ((ShardedEngine.batchGet hash ns keys s).1.map batchItem).map itemCounter) = keys.length
    rw [List.countP_cons_of_neg (by simp [Counter.ofLookup]), countP_itemCounter, List.length_map,
      length_outcomes_batchGet]
  | leaseStart ns key leaseTtlMs allowStaleMs =>
    simp only [requestOp, ShardedEngine.exec]
    rcases s.startLease hash ns key leaseTtlMs with ⟨_ | _ | _ | _, _⟩ <;> rfl
  | leaseComplete ns key leaseToken metadata value =>
    simp only [requestOp, ShardedEngine.exec]
    rcases s.completeLease hash o
      (nativeCompleteLeaseCommand ns key leaseToken metadata value) with ⟨(_ | error) | _, _⟩
    · rfl
    · cases error <;> rfl
    · rfl

theorem countP_counters (ev : Event n) :
    (ev.counters hash maxPayloadLen).countP Counter.ofLookup = ev.lookups hash maxPayloadLen := by
  obtain ⟨state, activity, _, _⟩ := ev
  cases activity with
  | native action =>
    cases action with
    | frame o connectionId bytes =>
      simp only [Event.counters, Event.lookups, Activity.counters, Activity.executed]
      cases decodeRequestFrame bytes maxPayloadLen with
      | ok request => exact countP_requestCounters state.engine request.payload
      | error e => rfl
    | expirationTick => rfl
  | http method path =>
    simp only [Event.counters, Event.lookups, Activity.counters, Activity.executed]
    split_ifs
    · rfl
    · rfl
    · rfl

/-- **The metrics report what has happened.** Whatever connections send whatever frames, and
whatever requests the admin server gets, each counter is the number of requests of its kind and of
answers of its kind: nothing is lost or counted twice between the shards. Frames that are not
decoded and scrapes are not counted. A key that has been looked up has been a hit, stale, a miss, or
has been answered with a lease or its denial. -/
theorem metrics_report_history (hash : String → Bytes → Nat) (maxPayloadLen : Nat)
    (clocks : Fin n → Clock) (limits : EngineLimits) (activities : List Activity)
    (hfew : ∀ counter, ((Machine.history (AppState.serve hash maxPayloadLen)
      (.fromConfig clocks limits) activities).flatMap
        (Event.counters hash maxPayloadLen)).count counter < 2 ^ 64) :
    let history := Machine.history (AppState.serve hash maxPayloadLen) (.fromConfig clocks limits)
      activities
    let reported counter := ((Machine.run (AppState.serve hash maxPayloadLen)
      (.fromConfig clocks limits) activities).snapshot counter).toNat
    (∀ counter, reported counter =
        (history.flatMap (Event.counters hash maxPayloadLen)).count counter) ∧
      reported .hitsTotal + reported .staleTotal + reported .missesTotal + reported .leaseGrants +
        reported .leaseDenials = (history.map (Event.lookups hash maxPayloadLen)).sum := by
  intro history reported
  obtain ⟨log, htallied, hlog⟩ := exists_log hash maxPayloadLen clocks limits activities
  have hreported : ∀ counter, reported counter =
      (history.flatMap (Event.counters hash maxPayloadLen)).count counter := by
    intro counter
    have hcount : (log.map Prod.snd).count counter < 2 ^ 64 := hlog ▸ hfew counter
    exact (toNat_snapshot htallied hcount).trans (congrArg (List.count counter) hlog)
  refine ⟨hreported, ?_⟩
  simp only [hreported]
  rw [← countP_ofLookup, List.countP_flatMap]
  exact congrArg List.sum (List.map_congr_left fun ev _ => countP_counters ev)

end

/-- A get on each of two connections, a frame that is not decoded, and requests to the admin
server. -/
def mixedActivities : List Activity :=
  [.native (.frame .asStored 1 getRequestBytes), .native (.frame .asStored 2 getRequestBytes),
    .native (.frame .asStored 1 unknownCommand), .http .get "/healthz",
    .http .get "/metrics", .http (.other "PUT") "/v1/key"]

theorem metrics_report_history_mixedActivities :
    let reported counter := ((Machine.run (AppState.serve (fun _ _ => 0) 64) emptyState
      mixedActivities).snapshot counter).toNat
    reported .getRequests = 2 ∧ reported .errorsTotal = 1 ∧
      reported .hitsTotal + reported .staleTotal + reported .missesTotal + reported .leaseGrants +
        reported .leaseDenials = 2 := by
  intro reported
  have hfew : ∀ counter, ((Machine.history (AppState.serve (fun _ _ => 0) 64) emptyState
      mixedActivities).flatMap (Event.counters (fun _ _ => 0) 64)).count counter < 2 ^ 64 := by
    intro counter
    cases counter <;> decide +kernel
  obtain ⟨hreported, hlookups⟩ := metrics_report_history (fun _ _ => 0) 64
    (fun _ => ⟨fun _ => 0, 0⟩) ⟨1000, 100⟩ mixedActivities hfew
  exact ⟨(hreported .getRequests).trans (by decide +kernel),
    (hreported .errorsTotal).trans (by decide +kernel), hlookups.trans (by decide +kernel)⟩

end Server
end Cachebox

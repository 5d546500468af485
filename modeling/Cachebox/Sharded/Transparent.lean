import Mathlib.Data.List.Forall2
import Cachebox.Sharded.Mirror

/-!
# Sharding is transparent

A sharded engine and one engine are given the same operations, with the same readings of the clock
while an operation runs. As long as they mirror each other the outcomes are the same up to the lease
tokens, which the shards mint from counters of their own. A renaming takes the tokens of the one
engine to those of the shards (`Renames`). It grows with every grant, and it is a function as long
as the one engine never grants a token twice, that is, until its counter of accesses is saturated.
-/

namespace Cachebox

/-! ## The two runs -/

def Engine.withClock (e : Engine) (clock : Clock) : Engine := { e with clock := clock }

namespace Op

/-- The operation with its lease token renamed, and with another iteration order. -/
def renamed (ρ : String → String) (o : IterOrder) : Op → Op
  | .put _ command => .put o command
  | .invalidateTag _ ns tag => .invalidateTag o ns tag
  | .completeLease _ command => .completeLease o { command with leaseToken := ρ command.leaseToken }
  | op => op

/-- No bound is set on what the operation may reclaim. -/
def Unlimited : Op → Prop
  | .reclaimExpiredBudget maxEntries => maxEntries = usizeMax
  | _ => True

/-- The key and the token of the lease that the operation has been granted. -/
def grant : Op → Outcome → Option (EntryId × String)
  | .startLease ns key _, .startLease outcome => outcome.token?.map (⟨ns, key⟩, ·)
  | _, _ => none

end Op

/-- An operation, the clock of the one engine and those of the shards while it runs, and the
iteration order of the hash tables of the sharded engine. -/
structure TimedOp (n : Nat) where
  op : Op
  clock : Clock
  clocks : Fin n → Clock
  order : IterOrder

def TimedOp.renamed {n : Nat} (ρ : String → String) (t : TimedOp n) : TimedOp n :=
  { t with op := t.op.renamed ρ t.order }

def Engine.execAt {n : Nat} (e : Engine) (t : TimedOp n) : Outcome × Engine :=
  (e.withClock t.clock).exec t.op

namespace ShardedEngine

variable {n : Nat}

/-- The leases granted in a run of the one engine. -/
def grants (history : List (Machine.Event Engine (TimedOp n) Outcome)) : List (EntryId × String) :=
  history.filterMap fun ev => ev.action.op.grant ev.outcome

theorem grants_concat (e : Engine) (ts : List (TimedOp n)) (t : TimedOp n) :
    grants (Machine.history Engine.execAt e (ts ++ [t])) =
      (t.op.grant ((Machine.run Engine.execAt e ts).execAt t).1).toList ++
        grants (Machine.history Engine.execAt e ts) := by
  simp only [grants, Machine.history_concat, List.filterMap_cons, Machine.event]
  cases t.op.grant ((Machine.run Engine.execAt e ts).execAt t).1 <;> rfl

def len (s : ShardedEngine n) : Nat := ((List.finRange n).map fun i => (s.shards i).len).sum

/-- The statistics, added up with `u64::saturating_add`. -/
def stats (s : ShardedEngine n) : EngineStats :=
  (List.finRange n).foldl (fun total i =>
    { expirations := min (total.expirations + (s.shards i).stats.expirations) UInt64.maxNat
      evictions := min (total.evictions + (s.shards i).stats.evictions) UInt64.maxNat }) ⟨0, 0⟩

def withClocks (s : ShardedEngine n) (clocks : Fin n → Clock) : ShardedEngine n :=
  { s with shards := fun i => (s.shards i).withClock (clocks i) }

section
variable [NeZero n] (hash : String → Bytes → Nat)

def execAt (s : ShardedEngine n) (t : TimedOp n) : Outcome × ShardedEngine n :=
  (s.withClocks t.clocks).exec hash t.op

/-- The shards read the same times as the one engine while they perform the operation. -/
def SameReadings : Op → Clock → (Fin n → Clock) → Prop
  | .put _ command, clock, clocks => (clocks (home hash command.id)).nowMs = clock.nowMs
  | .get ns key, clock, clocks | .getRef ns key, clock, clocks
  | .getRefWithoutAccessUpdate ns key, clock, clocks =>
    (clocks (home hash ⟨ns, key⟩)).nowMs = clock.nowMs
  | .batchGet ns keys, clock, clocks => SameBatchReadings hash ns keys clock clocks
  | .startLease ns key _, clock, clocks => clocks (home hash ⟨ns, key⟩) = clock
  | .completeLease _ command, clock, clocks => clocks (home hash command.id) = clock
  | .reclaimExpiredBudget _, clock, clocks => ∀ i, (clocks i).nowMs = clock.nowMs
  | .delete .., _, _ | .invalidateTag .., _, _ => True

end

theorem foldl_saturating (l : List (Fin n)) (f g : Fin n → Nat) (a b : Nat) :
    l.foldl (fun (total : EngineStats) i =>
        { expirations := min (total.expirations + f i) UInt64.maxNat
          evictions := min (total.evictions + g i) UInt64.maxNat })
      ⟨min a UInt64.maxNat, min b UInt64.maxNat⟩ =
      ⟨min (a + (l.map f).sum) UInt64.maxNat, min (b + (l.map g).sum) UInt64.maxNat⟩ := by
  induction l generalizing a b with
  | nil => rfl
  | cons i l ih =>
    have hmin : ∀ a c, min (min a UInt64.maxNat + c) UInt64.maxNat = min (a + c) UInt64.maxNat := by
      intro a c
      omega
    simp only [List.foldl_cons, hmin, ih, List.map_cons, List.sum_cons, Nat.add_assoc]

section
variable [NeZero n] {hash : String → Bytes → Nat} {ρ ρ' : String → String} {e e' : Engine}
  {s s' : ShardedEngine n} {id : EntryId}

/-! ## Tokens -/

/-- A granted token is minted from the counter, which it moves on. -/
theorem startLease_token {ns : String} {key : Bytes} {leaseTtlMs : UInt64} {token : String}
    (h : (e.startLease ns key leaseTtlMs).1.token? = some token) :
    ∃ k, e.nextAccess ≤ k ∧ token = leaseToken k ∧
      (e.startLease ns key leaseTtlMs).2.nextAccess = k.saturatingAdd 1 := by
  generalize hresult : e.startLease ns key leaseTtlMs = result at h ⊢
  cases hresult ▸ Engine.asks_startLease e ns key leaseTtlMs with
  | @refused outcome e₀ hno _ =>
    cases outcome with
    | leaseGranted => cases hno
    | _ => cases h
  | @granted e₀ staleValue hdoes =>
    obtain rfl := Option.some.inj h
    exact ⟨e₀.nextAccess, hdoes.nextAccess_le, rfl, rfl⟩

theorem grant_of_granted {ev : EngineEvent} {lease : Lease} (h : ev.granted = some (id, lease)) :
    ev.action.grant ev.outcome = some (id, lease.token) := by
  unfold EngineEvent.granted at h
  split at h
  · next haction houtcome =>
    cases h
    rw [haction, houtcome]
    rfl
  · cases h

/-- A lease that is stored after an operation has been stored before, or the operation has been
granted it. -/
theorem lease_exec {op : Op} {lease : Lease}
    (h : (e.exec op).2.leases.lookup id = some lease) :
    e.leases.lookup id = some lease ∨ op.grant (e.exec op).1 = some (id, lease.token) := by
  rcases Engine.grant_cases e op with
    ⟨-, hdoes⟩ | ⟨id₀, leaseTtlMs, e₀, rfl, hdoes, hafter, hgranted⟩
  · exact .inl (hdoes.lookup_leases h)
  · rw [hafter] at h
    have hlookup := (HashMap.lookup_insert' ..).symm.trans h
    split at hlookup
    · next hid =>
      cases hlookup
      rw [hid]
      exact .inr (grant_of_granted hgranted)
    · exact .inl (hdoes.lookup_leases hlookup)

/-- The renaming takes the tokens that the one engine has granted to those of the shards. Tokens of
one key come from one shard, so they are kept apart. -/
structure Renames (hash : String → Bytes → Nat) (ρ : String → String)
    (granted : List (EntryId × String)) (e : Engine) (s : ShardedEngine n) : Prop where
  minted : ∀ g ∈ granted, ∃ k < e.nextAccess, g.2 = leaseToken k
  mintedAtHome : ∀ g ∈ granted, ∃ k < (s.shards (home hash g.1)).nextAccess, ρ g.2 = leaseToken k
  distinct : ∀ id token token', (id, token) ∈ granted → (id, token') ∈ granted →
    ρ token = ρ token' → token = token'
  leases : ∀ id lease, e.leases.lookup id = some lease → (id, lease.token) ∈ granted

section
variable {granted : List (EntryId × String)}

theorem Renames.ne_of_le (T : Renames hash ρ granted e s) {k : UInt64} (hk : e.nextAccess ≤ k) :
    ∀ g ∈ granted, g.2 ≠ leaseToken k := by
  intro g hg heq
  obtain ⟨j, hj, htoken⟩ := T.minted g hg
  cases leaseToken_injective (heq.symm.trans htoken)
  exact UInt64.lt_irrefl _ (UInt64.lt_of_lt_of_le hj hk)

/-- Nothing has been granted. -/
theorem Renames.kept (T : Renames hash ρ granted e s) (hnext : e.nextAccess ≤ e'.nextAccess)
    (hnext' : ∀ i, (s.shards i).nextAccess ≤ (s'.shards i).nextAccess)
    (hleases : ∀ id lease, e'.leases.lookup id = some lease → (id, lease.token) ∈ granted) :
    Renames hash ρ granted e' s' := by
  refine ⟨fun g hg => ?_, fun g hg => ?_, T.distinct, hleases⟩
  · obtain ⟨k, hk, htoken⟩ := T.minted g hg
    exact ⟨k, UInt64.lt_of_lt_of_le hk hnext, htoken⟩
  · obtain ⟨k, hk, htoken⟩ := T.mintedAtHome g hg
    exact ⟨k, UInt64.lt_of_lt_of_le hk (hnext' _), htoken⟩

/-- A lease has been granted, with the token of `k` in the one engine and that of `k'` in the shard
of its key. -/
theorem Renames.cons (T : Renames hash ρ granted e s) {k k' : UInt64} (hk : e.nextAccess ≤ k)
    (hk' : (s.shards (home hash id)).nextAccess ≤ k') (hnext : k < e'.nextAccess)
    (hnext' : ∀ i, (s.shards i).nextAccess ≤ (s'.shards i).nextAccess)
    (hself : k' < (s'.shards (home hash id)).nextAccess)
    (hleases : ∀ id' lease, e'.leases.lookup id' = some lease →
      (id', lease.token) ∈ (id, leaseToken k) :: granted) :
    Renames hash (Function.update ρ (leaseToken k) (leaseToken k')) ((id, leaseToken k) :: granted)
      e' s' := by
  have hold : ∀ g ∈ granted, Function.update ρ (leaseToken k) (leaseToken k') g.2 = ρ g.2 :=
    fun g hg => Function.update_of_ne (T.ne_of_le hk g hg) ..
  have hle : e.nextAccess ≤ e'.nextAccess := UInt64.le_trans hk (UInt64.le_of_lt hnext)
  -- a token of the same shard that has been granted before differs from the new one
  have hapart : ∀ token, (id, token) ∈ granted → ρ token ≠ leaseToken k' := by
    intro token hmem heq
    obtain ⟨j, hj, htoken⟩ := T.mintedAtHome _ hmem
    cases leaseToken_injective (heq.symm.trans htoken)
    exact UInt64.lt_irrefl _ (UInt64.lt_of_lt_of_le hj hk')
  refine ⟨?_, ?_, fun id' token token' hmem hmem' heq => ?_, hleases⟩
  · rw [List.forall_mem_cons]
    refine ⟨⟨k, hnext, rfl⟩, fun g hg => ?_⟩
    obtain ⟨j, hj, htoken⟩ := T.minted g hg
    exact ⟨j, UInt64.lt_of_lt_of_le hj hle, htoken⟩
  · rw [List.forall_mem_cons]
    refine ⟨⟨k', hself, Function.update_self ..⟩, fun g hg => ?_⟩
    obtain ⟨j, hj, htoken⟩ := T.mintedAtHome g hg
    exact ⟨j, UInt64.lt_of_lt_of_le hj (hnext' _), (hold g hg).trans htoken⟩
  · rcases List.mem_cons.mp hmem with hnew | hmem
    · cases hnew
      rcases List.mem_cons.mp hmem' with hnew' | hmem'
      · cases hnew'
        rfl
      · rw [Function.update_self, hold _ hmem'] at heq
        exact absurd heq.symm (hapart token' hmem')
    · rcases List.mem_cons.mp hmem' with hnew' | hmem'
      · cases hnew'
        rw [Function.update_self, hold _ hmem] at heq
        exact absurd heq (hapart token hmem)
      · rw [hold _ hmem, hold _ hmem'] at heq
        exact T.distinct id' token token' hmem hmem' heq

end

/-! ## One operation -/

section
variable {granted : List (EntryId × String)}

/-- What one operation does to the two engines and to the renaming, which grows with the token of a
granted lease and stays as it is for the others. -/
structure Follows (hash : String → Bytes → Nat) (ρ ρ' : String → String)
    (granted : List (EntryId × String)) (op op' : Op) (e : Engine) (s : ShardedEngine n) :
    Prop where
  kept : ∀ g ∈ granted, ρ' g.2 = ρ g.2
  answers : Answers hash ρ' op op' e s
  renames : Renames hash ρ' ((op.grant (e.exec op).1).toList ++ granted) (e.exec op).2
    (s.exec hash op').2

/-- An operation that is granted no lease. -/
theorem Answers.follows {op op' : Op} (h : Answers hash ρ op op' e s)
    (T : Renames hash ρ granted e s) (hgrant : op.grant (e.exec op).1 = none) :
    Follows hash ρ ρ granted op op' e s := by
  refine ⟨fun _ _ => rfl, h, ?_⟩
  rw [hgrant]
  refine T.kept (Engine.exec_does e op).nextAccess_le h.nextAccess fun id lease hl => ?_
  rcases lease_exec hl with hbefore | hgranted
  · exact T.leases id lease hbefore
  · rw [hgrant] at hgranted
    cases hgranted

theorem follows_startLease {ns : String} {key : Bytes} {leaseTtlMs : UInt64}
    (H : Mirrors hash ρ e s) (T : Renames hash ρ granted e s)
    (hclock : (s.shards (home hash ⟨ns, key⟩)).clock = e.clock)
    (hcount : (e.exec (.startLease ns key leaseTtlMs)).2.nextAccess.toNat < UInt64.maxNat) :
    ∃ ρ', Follows hash ρ ρ' granted (.startLease ns key leaseTtlMs) (.startLease ns key leaseTtlMs)
      e s := by
  have hgrant : (Op.startLease ns key leaseTtlMs).grant
      (e.exec (.startLease ns key leaseTtlMs)).1 =
        (e.startLease ns key leaseTtlMs).1.token?.map (⟨ns, key⟩, ·) := rfl
  generalize hresult' : (s.shards (home hash ⟨ns, key⟩)).startLease ns key leaseTtlMs = result'
  cases htoken : (e.startLease ns key leaseTtlMs).1.token? with
  | none =>
    have hnames : Engine.Alike.Names ρ (e.startLease ns key leaseTtlMs).1
        ((s.shards (home hash ⟨ns, key⟩)).startLease ns key leaseTtlMs).1 :=
      fun _ _ h => nomatch htoken.symm.trans h
    refine ⟨ρ, (answers_startLease H H.spread hclock hnames hcount).follows T ?_⟩
    rw [hgrant, htoken]
    rfl
  | some token =>
    obtain ⟨k, hk, rfl, hnext⟩ := startLease_token htoken
    obtain ⟨ρ', hρ'⟩ : ∃ ρ', ρ' = Function.update ρ (leaseToken k) (result'.1.token?.getD "") :=
      ⟨_, rfl⟩
    have hkept : ∀ g ∈ granted, ρ' g.2 = ρ g.2 := by
      intro g hg
      rw [hρ']
      exact Function.update_of_ne (T.ne_of_le hk g hg) ..
    have hnames : Engine.Alike.Names ρ' (e.startLease ns key leaseTtlMs).1
        ((s.shards (home hash ⟨ns, key⟩)).startLease ns key leaseTtlMs).1 := by
      intro token token' h h'
      cases htoken.symm.trans h
      rw [hresult'] at h'
      rw [hρ', Function.update_self, h']
      rfl
    have hanswers := answers_startLease H
      (H.spread.congr fun id lease hl => hkept _ (T.leases id lease hl)) hclock hnames hcount
    -- the shard has granted a lease too, with a token of its own
    have houtcome : ((s.shards (home hash ⟨ns, key⟩)).startLease ns key leaseTtlMs).1 =
        (e.startLease ns key leaseTtlMs).1.renamed ρ' := Outcome.startLease.inj hanswers.outcome
    have htoken' : ((s.shards (home hash ⟨ns, key⟩)).startLease ns key leaseTtlMs).1.token? =
        some (ρ' (leaseToken k)) := by
      rw [houtcome, StartLeaseOutcome.token?_renamed, htoken]
      rfl
    obtain ⟨k', hk', hname, hnext'⟩ := startLease_token htoken'
    have hshard : (s.exec hash (.startLease ns key leaseTtlMs)).2.shards (home hash ⟨ns, key⟩) =
        ((s.shards (home hash ⟨ns, key⟩)).startLease ns key leaseTtlMs).2 :=
      Function.update_self ..
    have hcount' := hanswers.mirrors.spread.nextAccess (home hash ⟨ns, key⟩)
    rw [hshard, hnext', UInt64.le_iff_toNat_le] at hcount'
    rw [hρ', Function.update_self] at hname
    refine ⟨ρ', hkept, hanswers, ?_⟩
    rw [hgrant, htoken, hρ', hname]
    refine T.cons hk hk' ?_ hanswers.nextAccess ?_ fun id lease hl => ?_
    · show k < (e.startLease ns key leaseTtlMs).2.nextAccess
      rw [hnext]
      exact UInt64.lt_saturatingAdd_one (hnext ▸ hcount)
    · rw [hshard, hnext']
      exact UInt64.lt_saturatingAdd_one (Nat.lt_of_le_of_lt hcount' hcount)
    · rcases lease_exec hl with hbefore | hgranted
      · exact List.mem_cons_of_mem _ (T.leases id lease hbefore)
      · rw [hgrant, htoken] at hgranted
        rw [← Option.some.inj hgranted]
        exact List.mem_cons_self

/-- **One operation** on two engines that mirror each other. -/
theorem follows_exec (H : Mirrors hash ρ e s) (T : Renames hash ρ granted e s) (op : Op)
    (o : IterOrder) (hread : SameReadings hash op e.clock fun i => (s.shards i).clock)
    (hunlimited : op.Unlimited) (hfits : op.Fits (divCeil e.limits.maxMemoryBytes n) e)
    (htoken : ∀ o command, op = .completeLease o command →
      (command.id, command.leaseToken) ∈ granted)
    (hcount : (e.exec op).2.nextAccess.toNat < UInt64.maxNat) :
    ∃ ρ', Follows hash ρ ρ' granted op (op.renamed ρ o) e s := by
  cases op with
  | put o₀ command => exact ⟨ρ, (answers_put H hfits hread hcount).follows T rfl⟩
  | get ns key => exact ⟨ρ, (answers_get H hread hcount).follows T rfl⟩
  | getRef ns key =>
    have halike := (H.spread.alike ⟨ns, key⟩).getRefInner hread true fun outcome => outcome
    exact ⟨ρ, (answers_read H (·.getRef ns key fun outcome => outcome) .getRef rfl rfl
      (fun _ => rfl) (Engine.does_getRefInner_only ns key true _) halike hcount).follows T rfl⟩
  | getRefWithoutAccessUpdate ns key =>
    have halike := (H.spread.alike ⟨ns, key⟩).getRefInner hread false fun outcome => outcome
    exact ⟨ρ, (answers_read H (·.getRefWithoutAccessUpdate ns key fun outcome => outcome) .getRef
      rfl rfl (fun _ => rfl) (Engine.does_getRefInner_only ns key false _) halike hcount).follows T
      rfl⟩
  | batchGet ns keys => exact ⟨ρ, (answers_batchGet H hread hcount).follows T rfl⟩
  | delete ns key => exact ⟨ρ, (answers_delete H hcount).follows T rfl⟩
  | invalidateTag o₀ ns tag => exact ⟨ρ, (answers_invalidateTag H o₀ o ns tag).follows T rfl⟩
  | startLease ns key leaseTtlMs => exact follows_startLease H T hread hcount
  | completeLease o₀ command =>
    have hgranted := htoken o₀ command rfl
    refine ⟨ρ, (answers_completeLease H hfits hread (fun lease hl => ?_) hcount).follows T rfl⟩
    exact ⟨T.distinct _ _ _ (T.leases _ lease hl) hgranted, congrArg ρ⟩
  | reclaimExpiredBudget maxEntries =>
    obtain rfl : maxEntries = usizeMax := hunlimited
    exact ⟨ρ, (answers_reclaimExpiredBudget H hread hcount).follows T rfl⟩

end

/-! ## Runs -/

/-- The operation is one that the comparison is about, after a run of the one engine that has led to
`e` and has granted some leases. -/
structure Admissible (hash : String → Bytes → Nat) (e : Engine) (granted : List (EntryId × String))
    (t : TimedOp n) : Prop where
  readings : SameReadings hash t.op t.clock t.clocks
  unlimited : t.op.Unlimited
  /-- What is charged fits in one shard. -/
  fits : t.op.Fits (divCeil e.limits.maxMemoryBytes n) (e.withClock t.clock)
  /-- A completion uses a token that has been granted for its key. -/
  token : ∀ o command, t.op = .completeLease o command →
    (command.id, command.leaseToken) ∈ granted

/-- Every operation is admissible after those before it. -/
inductive Comparable (hash : String → Bytes → Nat) (e : Engine) : List (TimedOp n) → Prop
  | nil : Comparable hash e []
  | concat {ts t} : Comparable hash e ts →
      Admissible hash (Machine.run Engine.execAt e ts) (grants (Machine.history Engine.execAt e ts))
        t → Comparable hash e (ts ++ [t])

/-- The outcomes correspond, and so do the accessors of the engines afterwards. -/
structure SameEvent (view : Outcome → Outcome) (ev : Machine.Event Engine (TimedOp n) Outcome)
    (ev' : Machine.Event (ShardedEngine n) (TimedOp n) Outcome) : Prop where
  outcome : ev'.outcome = view ev.outcome
  len : ev'.after.len = ev.after.len
  memoryUsedBytes : ev'.after.memoryUsedBytes = ev.after.memoryUsedBytes
  stats : ev'.after.stats = ev.after.stats

/-- The run of the sharded engine with renamed tokens is that of the one engine, event by event. -/
def SameRun (hash : String → Bytes → Nat) (ρ : String → String) (view : Outcome → Outcome)
    (e : Engine) (s : ShardedEngine n) (ts : List (TimedOp n)) : Prop :=
  List.Forall₂ (SameEvent view) (Machine.history Engine.execAt e ts)
    (Machine.history (execAt hash) s (ts.map (TimedOp.renamed ρ)))

namespace Mirrors

theorem stats_eq (H : Mirrors hash ρ e s) : s.stats = e.stats := by
  have hcounted := H.counted
  have hmax := e.nextAccess.toNat_le_maxNat
  have hexpirations := H.expirations
  rw [Fin.sum_univ_def] at hexpirations
  have hevictions : ((List.finRange n).map fun i => (s.shards i).stats.evictions).sum = 0 := by
    simp [H.evictions.2]
  have hfold := foldl_saturating (List.finRange n) (fun i => (s.shards i).stats.expirations)
    (fun i => (s.shards i).stats.evictions) 0 0
  rw [← hexpirations, hevictions] at hfold
  have hstats : e.stats = ⟨e.stats.expirations, 0⟩ := by rw [← H.evictions.1]
  rw [hstats]
  refine hfold.trans ?_
  rw [Nat.zero_add, Nat.min_eq_left (by omega)]
  rfl

theorem sameEvent (view : Outcome → Outcome)
    {ev : Machine.Event Engine (TimedOp n) Outcome}
    {ev' : Machine.Event (ShardedEngine n) (TimedOp n) Outcome}
    (H : Mirrors hash ρ ev.after ev'.after) (houtcome : ev'.outcome = view ev.outcome) :
    SameEvent view ev ev' := by
  refine ⟨houtcome, ?_, ?_, H.stats_eq⟩
  · rw [H.spread.len_eq, Fin.sum_univ_def]
    rfl
  · rw [H.memory_eq, Fin.sum_univ_def]
    rfl

theorem withClocks (H : Mirrors hash ρ e s) (clock : Clock) (clocks : Fin n → Clock) :
    Mirrors hash ρ (e.withClock clock) (s.withClocks clocks) where
  inv := H.inv.congr rfl rfl rfl rfl rfl
  shardedInv :=
    { shards := fun i => (H.shardedInv.shards i).congr rfl rfl rfl rfl rfl
      limits := H.shardedInv.limits
      routed := H.shardedInv.routed }
  limits := H.limits
  spread := ⟨H.spread.elsewhere, H.spread.entry, H.spread.lease, H.spread.nextAccess⟩
  expirations := H.expirations
  evictions := H.evictions
  counted := H.counted

end Mirrors

theorem mirrors_withClockAndLimits (hash : String → Bytes → Nat) (ρ : String → String)
    (clock : Clock) (clocks : Fin n → Clock) (limits : EngineLimits) :
    Mirrors hash ρ (Engine.withClockAndLimits clock limits) (withClockAndLimits clocks limits) where
  inv := Engine.inv_withClockAndLimits clock limits
  shardedInv := inv_withClockAndLimits clocks limits
  limits _ := rfl
  spread := ⟨fun _ _ _ => rfl, fun _ => rfl, fun _ => rfl, fun _ => UInt64.le_refl _⟩
  expirations := by simp [Engine.withClockAndLimits, withClockAndLimits]
  evictions := ⟨rfl, fun _ => rfl⟩
  counted := Nat.le_refl _

/-! ### A renaming that agrees on the granted tokens -/

theorem renamed_exec {op : Op} (h : ∀ g ∈ op.grant (e.exec op).1, ρ' g.2 = ρ g.2) :
    (e.exec op).1.renamed ρ' = (e.exec op).1.renamed ρ := by
  cases op with
  | startLease ns key leaseTtlMs =>
    have hsame : (e.startLease ns key leaseTtlMs).1.renamed ρ' =
        (e.startLease ns key leaseTtlMs).1.renamed ρ := by
      refine StartLeaseOutcome.renamed_congr fun token htoken => h (⟨ns, key⟩, token) ?_
      have hgrant := congrArg (Option.map ((⟨ns, key⟩ : EntryId), ·)) htoken
      exact hgrant
    exact congrArg Outcome.startLease hsame
  | _ => rfl

theorem renamed_op_congr {op : Op} (o : IterOrder)
    (h : ∀ o command, op = .completeLease o command →
      ρ' command.leaseToken = ρ command.leaseToken) : op.renamed ρ' o = op.renamed ρ o := by
  cases op with
  | completeLease o₀ command => simp only [Op.renamed, h o₀ command rfl]
  | _ => rfl

/-- Renamings that agree on the tokens granted in a run rename it alike. -/
theorem Comparable.renamed_congr {ts : List (TimedOp n)} (h : Comparable hash e ts)
    (hρ : ∀ g ∈ grants (Machine.history Engine.execAt e ts), ρ' g.2 = ρ g.2) :
    ts.map (TimedOp.renamed ρ') = ts.map (TimedOp.renamed ρ) ∧
      ∀ ev ∈ Machine.history Engine.execAt e ts, ev.outcome.renamed ρ' = ev.outcome.renamed ρ := by
  induction h with
  | nil => exact ⟨rfl, fun ev hev => absurd hev List.not_mem_nil⟩
  | @concat ts t _ hadmissible ih =>
    rw [grants_concat, List.forall_mem_append] at hρ
    obtain ⟨hops, houtcomes⟩ := ih hρ.2
    have hop : t.op.renamed ρ' t.order = t.op.renamed ρ t.order :=
      renamed_op_congr t.order fun o command hop => hρ.2 _ (hadmissible.token o command hop)
    refine ⟨?_, ?_⟩
    · simp only [List.map_append, hops, List.map_cons, List.map_nil, TimedOp.renamed, hop]
    · rw [Machine.history_concat, List.forall_mem_cons]
      refine ⟨renamed_exec fun g hg => hρ.1 g ?_, houtcomes⟩
      exact Option.mem_toList.mpr hg

/-- The state of the comparison after a run. -/
structure Compared (hash : String → Bytes → Nat) (ρ : String → String) (e : Engine)
    (s : ShardedEngine n) (ts : List (TimedOp n)) : Prop where
  limits : (Machine.run Engine.execAt e ts).limits = e.limits
  sameRun : SameRun hash ρ
    (fun outcome => (outcome.renamed ρ).withBudget (divCeil e.limits.maxMemoryBytes n)) e s ts
  mirrors : Mirrors hash ρ (Machine.run Engine.execAt e ts)
    (Machine.run (execAt hash) s (ts.map (TimedOp.renamed ρ)))
  renames : Renames hash ρ (grants (Machine.history Engine.execAt e ts))
    (Machine.run Engine.execAt e ts) (Machine.run (execAt hash) s (ts.map (TimedOp.renamed ρ)))

theorem compared_run (H : Mirrors hash ρ e s) (T : Renames hash ρ [] e s) {ts : List (TimedOp n)}
    (h : Comparable hash e ts)
    (hcount : (Machine.run Engine.execAt e ts).nextAccess.toNat < UInt64.maxNat) :
    ∃ ρ', Compared hash ρ' e s ts := by
  induction h with
  | nil => exact ⟨ρ, rfl, .nil, H, T⟩
  | @concat ts t h hadmissible ih =>
    rw [Machine.run_concat] at hcount
    have hle := (Engine.exec_does ((Machine.run Engine.execAt e ts).withClock t.clock)
      t.op).nextAccess_le
    rw [UInt64.le_iff_toNat_le] at hle
    obtain ⟨ρ₁, hcompared⟩ := ih (Nat.lt_of_le_of_lt hle hcount)
    have T₁ : Renames hash ρ₁ (grants (Machine.history Engine.execAt e ts))
        ((Machine.run Engine.execAt e ts).withClock t.clock)
        ((Machine.run (execAt hash) s (ts.map (TimedOp.renamed ρ₁))).withClocks t.clocks) :=
      ⟨hcompared.renames.minted, hcompared.renames.mintedAtHome, hcompared.renames.distinct,
        hcompared.renames.leases⟩
    obtain ⟨ρ₂, hkept, hanswers, hrenames⟩ := follows_exec
      (hcompared.mirrors.withClocks t.clock t.clocks) T₁ t.op t.order hadmissible.readings
      hadmissible.unlimited hadmissible.fits hadmissible.token hcount
    obtain ⟨hops, houtcomes⟩ := h.renamed_congr hkept
    have hop : t.op.renamed ρ₂ t.order = t.op.renamed ρ₁ t.order :=
      renamed_op_congr t.order fun o command hop => hkept _ (hadmissible.token o command hop)
    have hrun : (ts ++ [t]).map (TimedOp.renamed ρ₂) =
        ts.map (TimedOp.renamed ρ₁) ++ [t.renamed ρ₁] := by
      simp only [List.map_append, hops, List.map_cons, List.map_nil, TimedOp.renamed, hop]
    have hlimits : ((Machine.run Engine.execAt e ts).withClock t.clock).limits = e.limits :=
      hcompared.limits
    have houtcome := hanswers.outcome
    rw [hlimits] at houtcome
    refine ⟨ρ₂, ?_, ?_, ?_, ?_⟩
    · rw [Machine.run_concat]
      exact (Engine.later_exec _ t.op).limits.trans hlimits
    · unfold SameRun
      rw [hrun, Machine.history_concat, Machine.history_concat]
      refine .cons (hanswers.mirrors.sameEvent _ houtcome) ?_
      -- the earlier outcomes do not have the new token
      have hbefore := (List.forall₂_and_left _ _).mpr ⟨houtcomes, hcompared.sameRun⟩
      refine hbefore.imp fun ev ev' hev => ⟨?_, hev.2.len, hev.2.memoryUsedBytes, hev.2.stats⟩
      rw [hev.1]
      exact hev.2.outcome
    · rw [hrun, Machine.run_concat, Machine.run_concat]
      exact hanswers.mirrors
    · rw [hrun, Machine.run_concat, Machine.run_concat, grants_concat]
      exact hrenames

/-- **Sharding is transparent** to every run whose charged memory fits in one shard, as long as the
counter of accesses is not saturated: the outcomes are the same up to a renaming of the lease tokens
and up to the budget that a refused put reports, and so are the number of entries, the charged
memory and the statistics after every operation. Tokens of one key keep different names. -/
theorem sharding_transparent (hash : String → Bytes → Nat) (clock : Clock) (clocks : Fin n → Clock)
    (limits : EngineLimits) (ts : List (TimedOp n))
    (h : Comparable hash (Engine.withClockAndLimits clock limits) ts)
    (hcount : (Machine.run Engine.execAt (Engine.withClockAndLimits clock limits)
      ts).nextAccess.toNat < UInt64.maxNat) :
    ∃ ρ : String → String,
      SameRun hash ρ
        (fun outcome => (outcome.renamed ρ).withBudget (divCeil limits.maxMemoryBytes n))
        (Engine.withClockAndLimits clock limits) (withClockAndLimits clocks limits) ts ∧
      ∀ id token token',
        let granted := grants (Machine.history Engine.execAt
          (Engine.withClockAndLimits clock limits) ts)
        (id, token) ∈ granted → (id, token') ∈ granted → ρ token = ρ token' → token = token' := by
  have hnone : Renames hash id [] (Engine.withClockAndLimits clock limits)
      (withClockAndLimits clocks limits) := by
    refine ⟨List.forall_mem_nil _, List.forall_mem_nil _, fun _ _ _ hmem => ?_,
      fun id lease hl => ?_⟩
    · exact absurd hmem List.not_mem_nil
    · simp [Engine.withClockAndLimits] at hl
  obtain ⟨ρ, hcompared⟩ := compared_run
    (mirrors_withClockAndLimits hash id clock clocks limits) hnone h hcount
  exact ⟨ρ, hcompared.sameRun, hcompared.renames.distinct⟩

end

/-! ### Concrete runs -/

/-- A clock that stands still. -/
def stopped (nowMs : UInt64) : Clock := ⟨fun _ => nowMs, 0⟩

/-- An operation at one time. -/
def atTime (nowMs : UInt64) (op : Op) : TimedOp 2 :=
  ⟨op, stopped nowMs, fun _ => stopped nowMs, .asStored⟩

/-- The hash of a key is its length. -/
def byLength (_ : String) (key : Bytes) : Nat := key.length

section
variable {granted : List (EntryId × String)} {nowMs : UInt64}

theorem admissible_get (e : Engine) (ns : String) (key : Bytes) :
    Admissible byLength e granted (atTime nowMs (.get ns key)) := ⟨rfl, trivial, trivial, nofun⟩

theorem admissible_startLease (e : Engine) (ns : String) (key : Bytes) (leaseTtlMs : UInt64) :
    Admissible byLength e granted (atTime nowMs (.startLease ns key leaseTtlMs)) :=
  ⟨rfl, trivial, trivial, nofun⟩

theorem admissible_put {e : Engine} {command : PutCommand}
    (h : ((e.withClock (stopped nowMs)).put .asStored command).1.isOk →
      (e.withClock (stopped nowMs)).chargedWith command ≤ divCeil e.limits.maxMemoryBytes 2) :
    Admissible byLength e granted (atTime nowMs (.put .asStored command)) :=
  ⟨rfl, trivial, h, nofun⟩

theorem admissible_completeLease {e : Engine} {command : CompleteLeaseCommand}
    (hgranted : (command.id, command.leaseToken) ∈ granted)
    (h : ((e.withClock (stopped nowMs)).completeLease .asStored command).1.isOk →
      (e.withClock (stopped nowMs)).chargedWith command.toPut ≤
        divCeil e.limits.maxMemoryBytes 2) :
    Admissible byLength e granted (atTime nowMs (.completeLease .asStored command)) := by
  refine ⟨rfl, trivial, h, fun o command' heq => ?_⟩
  cases heq
  exact hgranted

end

/-- A put, a lease that is granted and completed, a read of both keys, a reclamation and an
invalidation. -/
def leasedRun : List (TimedOp 2) :=
  [] ++ [atTime 0 (.put .asStored (taggedPut [1, 2]))] ++ [atTime 1 (.startLease "app" [1] 10)] ++
    [atTime 2 (.completeLease .asStored
      { ns := "app", key := [1], leaseToken := "lease-1", value := [119], ttl := some ⟨5⟩
        staleTtl := none, tags := ["red"], cost := none })] ++
    [atTime 3 (.batchGet "app" [[1], [1, 2]])] ++ [atTime 9 (.reclaimExpiredBudget usizeMax)] ++
    [atTime 9 (.invalidateTag .asStored "app" "red")]

theorem comparable_leasedRun :
    Comparable byLength (Engine.withClockAndLimits (stopped 0) default) leasedRun := by
  refine (((((Comparable.nil.concat ?_).concat ?_).concat ?_).concat ?_).concat ?_).concat ?_
  · exact admissible_put (by decide +kernel)
  · exact admissible_startLease ..
  · exact admissible_completeLease (by decide +kernel) (by decide +kernel)
  · exact ⟨⟨rfl, rfl, trivial⟩, trivial, trivial, nofun⟩
  · exact ⟨fun _ => rfl, rfl, trivial, nofun⟩
  · exact ⟨trivial, trivial, trivial, nofun⟩

/-- In the run of `leasedRun` the one engine grants the token `lease-1` and the shard `lease-0`. -/
theorem sharding_transparent_leasedRun :
    Comparable byLength (Engine.withClockAndLimits (stopped 0) default) leasedRun ∧
      ∃ ρ : String → String, SameRun byLength ρ
        (fun outcome => (outcome.renamed ρ).withBudget (divCeil (64 * 1024 * 1024) 2))
        (Engine.withClockAndLimits (stopped 0) default)
        (withClockAndLimits (fun _ => stopped 0) default) leasedRun :=
  ⟨comparable_leasedRun, (sharding_transparent byLength (stopped 0) (fun _ => stopped 0) default
    leasedRun comparable_leasedRun (by decide +kernel)).imp fun _ h => h.1⟩

/-! ### Where the runs differ -/

section
variable {e : Engine} {ns : String} {key : Bytes}

/-- The key is missing and has no lease. -/
structure Free (ns : String) (key : Bytes) (e : Engine) : Prop where
  entry : e.entries.lookup ⟨ns, key⟩ = none
  lease : e.leases.lookup ⟨ns, key⟩ = none

/-- The answers when a lease of no duration is asked for twice, the second time after its end. -/
def leaseTwice (e : Engine) (ns : String) (key : Bytes) : StartLeaseOutcome × StartLeaseOutcome :=
  let first := (e.withClock (stopped 0)).startLease ns key 0
  (first.1, ((first.2.withClock (stopped 1)).startLease ns key 0).1)

theorem leaseTwice_of_free (h : Free ns key e) :
    leaseTwice e ns key = (.leaseGranted (leaseToken e.nextAccess) none,
      .leaseGranted (leaseToken (e.nextAccess.saturatingAdd 1)) none) := by
  have hfirst : (e.withClock (stopped 0)).startLease ns key 0 =
      (.leaseGranted (leaseToken e.nextAccess) none,
        ((e.withClock (stopped 0)).createLease ⟨ns, key⟩ 0).2) :=
    Engine.startLease_of_missing_free h.entry h.lease
  obtain ⟨e₁, he₁⟩ : ∃ e₁, e₁ = ((e.withClock (stopped 0)).createLease ⟨ns, key⟩ 0).2.withClock
      (stopped 1) := ⟨_, rfl⟩
  have hl : e₁.entries.lookup ⟨ns, key⟩ = none := by rw [he₁]; exact h.entry
  have hlease : e₁.leases.lookup ⟨ns, key⟩ = some ⟨leaseToken e.nextAccess, 0⟩ := by
    rw [he₁]
    exact AList.lookup_insert _
  have hlease' : e₁.tick.leases.lookup ⟨ns, key⟩ = some ⟨leaseToken e.nextAccess, 0⟩ := hlease
  have hended : e₁.activeLease ⟨ns, key⟩ = (none, e₁.tick) := by
    rw [Engine.activeLease_of_some hlease, he₁]
    rfl
  have hended' : e₁.tick.activeLease ⟨ns, key⟩ = (none, e₁.tick.tick) := by
    rw [Engine.activeLease_of_some hlease', he₁]
    rfl
  have hsecond : (e₁.startLease ns key 0).1 =
      .leaseGranted (leaseToken (e.nextAccess.saturatingAdd 1)) none := by
    rw [Engine.startLease_of_missing hl, hended, Engine.startLeaseForMissing_eq, hended', he₁]
    rfl
  rw [leaseTwice, hfirst]
  dsimp only
  rw [← he₁, hsecond]

/-- The shard of the key answers the second request. -/
theorem leaseTwice_eq (hash : String → Bytes → Nat) (s : ShardedEngine 2) (ns : String)
    (key : Bytes) :
    ((s.execAt hash (atTime 0 (.startLease ns key 0))).2.execAt hash
      (atTime 1 (.startLease ns key 0))).1 =
        .startLease (leaseTwice (s.shards (home hash ⟨ns, key⟩)) ns key).2 := by
  have hshard : (s.execAt hash (atTime 0 (.startLease ns key 0))).2.shards (home hash ⟨ns, key⟩) =
      (((s.shards (home hash ⟨ns, key⟩)).withClock (stopped 0)).startLease ns key 0).2 :=
    Function.update_self ..
  rw [leaseTwice, ← hshard]
  rfl

/-- Reads of a key that does not expire move the counter of accesses. -/
theorem nextAccess_reads {other : Bytes} (hne : key ≠ other) (m : Nat) {entry : Entry}
    (hl : e.entries.lookup ⟨ns, other⟩ = some entry) (hforever : entry.expiresAtMs = none)
    (hfree : Free ns key e) :
    let e' := Machine.run Engine.execAt e (List.replicate m (atTime 0 (.get ns other)))
    e'.nextAccess.toNat = min (e.nextAccess.toNat + m) UInt64.maxNat ∧ Free ns key e' := by
  induction m generalizing e entry with
  | zero =>
    have := e.nextAccess.toNat_le_maxNat
    exact ⟨by simp [Machine.run]; omega, hfree⟩
  | succ m ih =>
    have hstate : entryStateAt entry 0 = .fresh := by simp [entryStateAt, hforever]
    have hget : e.execAt (atTime 0 (.get ns other)) = (.get (.hit entry.value),
        ((e.withClock (stopped 0)).tick.recordAccess ⟨ns, other⟩)) := by
      have := Engine.get_of_fresh (e := e.withClock (stopped 0)) hl hstate
      show ((e.withClock (stopped 0)).get ns other).map Outcome.get id = _
      rw [this]
      rfl
    have hl' := Engine.lookup_recordAccess_self (e := (e.withClock (stopped 0)).tick) hl
    have hfree' : Free ns key ((e.withClock (stopped 0)).tick.recordAccess ⟨ns, other⟩) := by
      have honly : (Mutation.access ⟨ns, other⟩).Only ⟨ns, other⟩ := rfl
      have hframe := Engine.frame_apply honly (e.withClock (stopped 0)).tick
      have hid : (⟨ns, key⟩ : EntryId) ≠ ⟨ns, other⟩ := fun h => hne (EntryId.mk.inj h).2
      exact ⟨(hframe.entries _ hid).trans hfree.entry, (hframe.leases _ hid).trans hfree.lease⟩
    obtain ⟨hcount, hfree''⟩ := ih hl' hforever hfree'
    have hrun : Machine.run Engine.execAt e (List.replicate (m + 1) (atTime 0 (.get ns other))) =
        Machine.run Engine.execAt ((e.withClock (stopped 0)).tick.recordAccess ⟨ns, other⟩)
          (List.replicate m (atTime 0 (.get ns other))) := by
      rw [List.replicate_succ, Machine.run, List.foldl_cons, hget]
      rfl
    have hnext : ((e.withClock (stopped 0)).tick.recordAccess ⟨ns, other⟩).nextAccess =
        e.nextAccess.saturatingAdd 1 := by
      have hl'' : (e.withClock (stopped 0)).tick.entries.lookup ⟨ns, other⟩ = some entry := hl
      rw [Engine.recordAccess, hl'']
      rfl
    dsimp only
    rw [hrun]
    refine ⟨?_, hfree''⟩
    rw [hcount, hnext, UInt64.toNat_saturatingAdd, UInt64.toNat_one]
    omega

/-- Reads in another shard leave the shard of the key alone. -/
theorem free_reads {n : Nat} [NeZero n] {hash : String → Bytes → Nat} {s : ShardedEngine n}
    {other : Bytes} {k : UInt64} (hne : (home hash ⟨ns, key⟩ : Fin n) ≠ home hash ⟨ns, other⟩)
    (hfree : Free ns key (s.shards (home hash ⟨ns, key⟩)))
    (hnext : (s.shards (home hash ⟨ns, key⟩)).nextAccess = k) {ts : List (TimedOp n)}
    (hts : ∀ t ∈ ts, t.op = .get ns other) :
    Free ns key ((Machine.run (execAt hash) s ts).shards (home hash ⟨ns, key⟩)) ∧
      ((Machine.run (execAt hash) s ts).shards (home hash ⟨ns, key⟩)).nextAccess = k := by
  refine Machine.run_invariant_of (I := fun s : ShardedEngine n =>
    Free ns key (s.shards (home hash ⟨ns, key⟩)) ∧
      (s.shards (home hash ⟨ns, key⟩)).nextAccess = k) (fun s t hop h => ?_) ⟨hfree, hnext⟩ hts
  have hshard : (s.execAt hash t).2.shards (home hash ⟨ns, key⟩) =
      (s.shards (home hash ⟨ns, key⟩)).withClock (t.clocks (home hash ⟨ns, key⟩)) := by
    rw [execAt, hop]
    exact Function.update_of_ne hne ..
  rw [hshard]
  exact ⟨⟨h.1.entry, h.1.lease⟩, h.2⟩

/-- Operations that are admissible in every state. -/
theorem Comparable.append {n : Nat} [NeZero n] {hash : String → Bytes → Nat}
    {ts ts' : List (TimedOp n)} (h : Comparable hash e ts)
    (h' : ∀ t ∈ ts', ∀ e granted, Admissible hash e granted t) : Comparable hash e (ts ++ ts') := by
  induction ts' using List.reverseRecOn with
  | nil => rwa [List.append_nil]
  | append_singleton ts' t ih =>
    rw [List.forall_mem_append] at h'
    rw [← List.append_assoc]
    exact (ih h'.1).concat (h'.2 t (List.mem_singleton_self t) _ _)

end

/-- A put of one key and `m` reads of it. -/
def putThenReads (m : Nat) : List (TimedOp 2) :=
  [atTime 0 (.put .asStored (taggedPut [1, 2]))] ++
    List.replicate m (atTime 0 (.get "app" [1, 2]))

/-- A put of one key, `m` reads of it, and two grants for a key of another shard. -/
def saturatingRun (m : Nat) : List (TimedOp 2) :=
  [atTime 0 (.put .asStored (taggedPut [1, 2]))] ++
    List.replicate m (atTime 0 (.get "app" [1, 2])) ++
      [atTime 0 (.startLease "app" [1] 0)] ++ [atTime 1 (.startLease "app" [1] 0)]

theorem comparable_saturatingRun (m : Nat) :
    Comparable byLength (Engine.withClockAndLimits (stopped 0) default)
      (saturatingRun m) := by
  have hput : Comparable byLength
      (Engine.withClockAndLimits (stopped 0) default)
      ([] ++ [atTime 0 (.put .asStored (taggedPut [1, 2]))]) :=
    .concat .nil (admissible_put (by decide +kernel))
  refine ((hput.append fun t ht e granted => ?_).concat (admissible_startLease ..)).concat
    (admissible_startLease ..)
  rw [List.eq_of_mem_replicate ht]
  exact admissible_get ..

/-- The reads saturate the counter of the one engine. -/
theorem saturated_putThenReads {m : Nat} (hm : UInt64.maxNat ≤ m) :
    let e := Machine.run Engine.execAt (Engine.withClockAndLimits (stopped 0) default)
      (putThenReads m)
    e.nextAccess.saturatingAdd 1 = e.nextAccess ∧ Free "app" [1] e := by
  have hstored : (Machine.run Engine.execAt (Engine.withClockAndLimits (stopped 0) default)
      [atTime 0 (.put .asStored (taggedPut [1, 2]))]).entries.lookup ⟨"app", [1, 2]⟩ =
        some ((taggedPut [1, 2]).entry 0 0) := by decide +kernel
  obtain ⟨hnext, hfree⟩ := nextAccess_reads (by decide) m hstored rfl
    (⟨by decide +kernel, by decide +kernel⟩ : Free "app" [1] _)
  rw [← Machine.run_append, ← putThenReads] at hnext hfree
  refine ⟨UInt64.toNat_inj.mp ?_, hfree⟩
  rw [UInt64.toNat_saturatingAdd, hnext]
  omega

/-- The shard of the other key has counted nothing. -/
theorem uncounted_putThenReads (m : Nat) :
    let s := Machine.run (execAt byLength) (withClockAndLimits (fun _ => stopped 0) default)
      (putThenReads m)
    Free "app" [1] (s.shards 1) ∧ (s.shards 1).nextAccess = 0 := by
  have hhome : (home byLength ⟨"app", [1]⟩ : Fin 2) = 1 := by decide
  have hne : (home byLength ⟨"app", [1]⟩ : Fin 2) ≠ home byLength ⟨"app", [1, 2]⟩ := by decide
  have hreads : ∀ t ∈ List.replicate m (atTime 0 (.get "app" [1, 2])),
      t.op = .get "app" [1, 2] := by
    intro t ht
    rw [List.eq_of_mem_replicate ht]
    rfl
  have hput : ((Machine.run (execAt byLength) (withClockAndLimits (fun _ => stopped 0) default)
      [atTime 0 (.put .asStored (taggedPut [1, 2]))]).shards
        (home byLength ⟨"app", [1]⟩)).nextAccess = 0 := by decide +kernel
  have hafter := free_reads hne ⟨by decide +kernel, by decide +kernel⟩ hput hreads
  rw [← Machine.run_append, hhome] at hafter
  exact hafter

/-- Once the counter is saturated the one engine grants a token twice, which the shards do not. -/
theorem not_sameRun_saturatingRun {m : Nat} (hm : UInt64.maxNat ≤ m) (ρ : String → String) :
    ¬ SameRun byLength ρ (Outcome.renamed ρ)
      (Engine.withClockAndLimits (stopped 0) default)
      (withClockAndLimits (fun _ => stopped 0) default) (saturatingRun m) := by
  intro h
  have hops : (saturatingRun m).map (TimedOp.renamed ρ) = saturatingRun m := by
    unfold saturatingRun
    rw [List.map_append, List.map_append, List.map_append, List.map_replicate]
    rfl
  unfold SameRun at h
  rw [hops, saturatingRun, ← putThenReads, Machine.history_concat, Machine.history_concat,
    Machine.history_concat, Machine.history_concat, Machine.run_concat, Machine.run_concat] at h
  obtain ⟨hsaturated, hfree⟩ := saturated_putThenReads hm
  obtain ⟨hfree', hzero⟩ := uncounted_putThenReads m
  -- the states before the grants matter no further
  generalize Machine.run Engine.execAt (Engine.withClockAndLimits (stopped 0) default)
    (putThenReads m) = e at h hsaturated hfree
  generalize Machine.run (execAt byLength) (withClockAndLimits (fun _ => stopped 0) default)
    (putThenReads m) = s at h hfree' hzero
  rcases h with _ | ⟨hsecond, _ | ⟨hfirst, -⟩⟩
  have hfirst' : (leaseTwice (s.shards 1) "app" [1]).1 =
      (leaseTwice e "app" [1]).1.renamed ρ := Outcome.startLease.inj hfirst.outcome
  have hsecond' : (leaseTwice (s.shards 1) "app" [1]).2 =
      (leaseTwice e "app" [1]).2.renamed ρ := by
    have houtcome := hsecond.outcome
    dsimp only [Machine.event] at houtcome
    rw [leaseTwice_eq] at houtcome
    exact Outcome.startLease.inj houtcome
  rw [leaseTwice_of_free hfree, leaseTwice_of_free hfree', hzero] at hfirst' hsecond'
  rw [hsaturated] at hsecond'
  have htokens : leaseToken 0 = leaseToken (UInt64.saturatingAdd 0 1) :=
    (StartLeaseOutcome.leaseGranted.inj hfirst').1.trans
      (StartLeaseOutcome.leaseGranted.inj hsecond').1.symm
  exact absurd (leaseToken_injective htokens) (by decide)

/-- A put that exceeds the memory of a shard is refused with the budget of the shard. -/
theorem not_sameRun_refusedPut (ρ : String → String) :
    ¬ SameRun byLength ρ (Outcome.renamed ρ)
      (Engine.withClockAndLimits (stopped 0) ⟨100, 100⟩)
      (withClockAndLimits (fun _ => stopped 0) ⟨100, 100⟩)
      [atTime 0 (.put .asStored (taggedPut [1]))] := by
  intro h
  have hengine : ((Engine.withClockAndLimits (stopped 0) ⟨100, 100⟩).execAt
      (atTime 0 (.put .asStored (taggedPut [1])))).1 =
        .put (.error (.valueTooLargeForMemory 104 100)) := by decide +kernel
  have hshard : (execAt byLength (withClockAndLimits (fun _ => stopped 0) ⟨100, 100⟩)
      (atTime 0 (.put .asStored (taggedPut [1])))).1 =
        .put (.error (.valueTooLargeForMemory 104 50)) := by decide +kernel
  rcases h with _ | ⟨hput, -⟩
  have houtcome : (execAt byLength (withClockAndLimits (fun _ => stopped 0) ⟨100, 100⟩)
      (atTime 0 (.put .asStored (taggedPut [1])))).1 = _ := hput.outcome
  rw [hshard] at houtcome
  dsimp only [Machine.event] at houtcome
  rw [hengine] at houtcome
  exact absurd houtcome nofun

/-- Two runs that no renaming of the tokens makes the same. A put that exceeds the memory is refused
with the budget of the shard. And once the counter of accesses is saturated the one engine grants a
token twice. -/
theorem not_transparent_budget_and_saturation :
    (Comparable byLength (Engine.withClockAndLimits (stopped 0) ⟨100, 100⟩)
        [atTime 0 (.put .asStored (taggedPut [1]))] ∧
      ∀ ρ, ¬ SameRun byLength ρ (Outcome.renamed ρ)
        (Engine.withClockAndLimits (stopped 0) ⟨100, 100⟩)
        (withClockAndLimits (fun _ => stopped 0) ⟨100, 100⟩)
        [atTime 0 (.put .asStored (taggedPut [1]))]) ∧
    (Comparable byLength (Engine.withClockAndLimits (stopped 0) default)
        (saturatingRun (2 ^ 64)) ∧
      ∀ ρ, ¬ SameRun byLength ρ (Outcome.renamed ρ)
        (Engine.withClockAndLimits (stopped 0) default)
        (withClockAndLimits (fun _ => stopped 0) default) (saturatingRun (2 ^ 64))) := by
  refine ⟨⟨?_, not_sameRun_refusedPut⟩, comparable_saturatingRun _,
    not_sameRun_saturatingRun (by decide)⟩
  exact Comparable.nil.concat (admissible_put (by decide +kernel))

end ShardedEngine
end Cachebox

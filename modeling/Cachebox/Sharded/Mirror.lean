import Mathlib.Algebra.Order.BigOperators.Group.Finset
import Cachebox.Engine.Alike
import Cachebox.Sharded.Routing

/-!
# A sharded engine that mirrors one engine

As long as the charged memory fits in one shard no engine reclaims anything to make room, and then
the shards together hold what one engine holds (`Mirrors`): each entry in the shard of its key, with
its lease, up to access stamps and lease tokens. An operation is answered alike by both and keeps
them in step (`Answers`), up to a renaming of the tokens and up to the budget that a refused put
reports, which is that of its shard. The operations on one key are carried out by the shard of the
key, and all of them rest on `Engine.Alike`; the others remove the same entries on both sides.
-/

namespace Cachebox

/-- An accepted write leaves no more memory charged than `budget`, without any reclamation. -/
def Op.Fits (budget : Nat) (e : Engine) : Op → Prop
  | .put o command => (e.put o command).1.isOk → e.chargedWith command ≤ budget
  | .completeLease o command =>
    (e.completeLease o command).1.isOk → e.chargedWith command.toPut ≤ budget
  | _ => True

namespace Outcome

def renamed (ρ : String → String) : Outcome → Outcome
  | .startLease outcome => .startLease (outcome.renamed ρ)
  | outcome => outcome

/-- The outcome that reports another memory budget. -/
def withBudget (maxMemoryBytes : Nat) : Outcome → Outcome
  | .put result => .put (result.mapError (PutError.withBudget maxMemoryBytes))
  | .completeLease result =>
    .completeLease (result.mapError (CompleteLeaseError.withBudget maxMemoryBytes))
  | outcome => outcome

end Outcome

namespace ShardedEngine

variable {n : Nat}

/-- The sections of `reclaim_expired_budget` reclaim everything, as long as the budget exceeds the
number of entries that they find. -/
theorem reclaims_reclaimShards {s : ShardedEngine n} {nowMs : UInt64} {indices : List (Fin n)}
    (hnodup : indices.Nodup) {remaining : Nat} (hinv : ∀ i, (s.shards i).Inv)
    (hnow : ∀ i, (s.shards i).clock.nowMs = nowMs)
    (hlen : (indices.map fun i => (s.shards i).len).sum < remaining) :
    ∃ counts : Fin n → Nat, (reclaimShards indices remaining s).1 = (indices.map counts).sum ∧
      ∀ i ∈ indices, Engine.Reclaims nowMs (counts i) (s.shards i)
        ((reclaimShards indices remaining s).2.shards i) := by
  obtain ⟨counts, -, -, hsum, hshards⟩ := reclaimShards_invariant
    (P := fun indices remaining _ => (indices.map fun i => (s.shards i).len).sum < remaining)
    (Q := fun i count shard => Engine.Reclaims nowMs count (s.shards i) shard)
    (fun _ _ hzero => absurd hzero (Nat.not_lt_zero _))
    (fun i indices remaining _ _ hlen => by
      rw [List.map_cons, List.sum_cons] at hlen
      have hreclaims := Engine.reclaims_removeExpired (hinv i)
        (show (s.shards i).len < remaining by omega)
      rw [hnow i] at hreclaims
      have hcount := hreclaims.purges.count
      exact ⟨show _ < remaining - ((s.shards i).removeExpired remaining).1 by omega, hreclaims⟩)
    hnodup remaining 0 hlen
  exact ⟨counts, hsum, hshards⟩

section
variable [NeZero n] {hash : String → Bytes → Nat} {ρ ρ' : String → String} {e e' : Engine}
  {s s' : ShardedEngine n} {id : EntryId}

/-- The shard of a key. -/
def home (hash : String → Bytes → Nat) (id : EntryId) : Fin n := shardIndexFor hash id.ns id.key

/-- Every entry is in the shard of its key, with its lease. -/
structure Spread (hash : String → Bytes → Nat) (ρ : String → String) (e : Engine)
    (s : ShardedEngine n) : Prop where
  elsewhere : ∀ i id, i ≠ home hash id → (s.shards i).entries.lookup id = none
  entry : ∀ id, ((s.shards (home hash id)).entries.lookup id).map Entry.content =
    (e.entries.lookup id).map Entry.content
  lease : ∀ id, (s.shards (home hash id)).leases.lookup id =
    (e.leases.lookup id).map (Lease.renamed ρ)
  nextAccess : ∀ i, (s.shards i).nextAccess ≤ e.nextAccess

/-- The sharded engine mirrors the one engine. An expired entry has been stored before, so the
counter of accesses bounds the number of expirations, which therefore do not saturate. -/
structure Mirrors (hash : String → Bytes → Nat) (ρ : String → String) (e : Engine)
    (s : ShardedEngine n) : Prop where
  inv : e.Inv
  shardedInv : s.Inv
  limits : ∀ i, (s.shards i).limits = e.limits.forShard n
  spread : Spread hash ρ e s
  expirations : e.stats.expirations = ∑ i, (s.shards i).stats.expirations
  evictions : e.stats.evictions = 0 ∧ ∀ i, (s.shards i).stats.evictions = 0
  counted : e.stats.expirations + e.len ≤ e.nextAccess.toNat

theorem Spread.alike (H : Spread hash ρ e s) (id : EntryId) :
    Engine.Alike ρ id e (s.shards (home hash id)) :=
  ⟨H.entry id, H.lease id, H.nextAccess _⟩

/-- What depends on the contents of the entries adds up. -/
theorem Spread.sumBy (H : Spread hash ρ e s) (f : EntryId → Entry → Nat)
    (hf : ∀ id entry entry', entry'.content = entry.content → f id entry' = f id entry) :
    HashMap.sumBy f e.entries = ∑ i, HashMap.sumBy f (s.shards i).entries :=
  HashMap.sumBy_spread f hf H.entry H.elsewhere

theorem Spread.len_eq (H : Spread hash ρ e s) : e.len = ∑ i, (s.shards i).len := by
  simp only [Engine.len, ← HashMap.sumBy_one]
  exact H.sumBy _ fun _ _ _ _ => rfl

/-- The renaming matters on the tokens of the stored leases only. -/
theorem Spread.congr (H : Spread hash ρ e s)
    (hρ : ∀ id lease, e.leases.lookup id = some lease → ρ' lease.token = ρ lease.token) :
    Spread hash ρ' e s := by
  refine ⟨H.elsewhere, H.entry, fun id => ?_, H.nextAccess⟩
  rw [H.lease]
  cases hl : e.leases.lookup id with
  | none => rfl
  | some lease => simp [Lease.renamed, hρ id lease hl]

/-- An operation on one key, in the one engine and in the shard of the key. -/
theorem Spread.onKey (H : Spread hash ρ e s) {f' : Engine}
    (hshards : s'.shards = Function.update s.shards (home hash id) f')
    (hframe : Engine.Frame id e e') (hframe' : Engine.Frame id (s.shards (home hash id)) f')
    (halike : Engine.Alike ρ id e' f') : Spread hash ρ e' s' := by
  have hself : s'.shards (home hash id) = f' := by rw [hshards, Function.update_self]
  have hother : ∀ i, i ≠ home hash id → s'.shards i = s.shards i := by
    intro i hi
    rw [hshards, Function.update_of_ne hi]
  -- another key is found as before, whether or not it lives in the same shard
  have hentries : ∀ i id', id' ≠ id →
      (s'.shards i).entries.lookup id' = (s.shards i).entries.lookup id' := by
    intro i id' hid
    by_cases hi : i = home hash id
    · rw [hi, hself, hframe'.entries id' hid]
    · rw [hother i hi]
  have hleases : ∀ i id', id' ≠ id →
      (s'.shards i).leases.lookup id' = (s.shards i).leases.lookup id' := by
    intro i id' hid
    by_cases hi : i = home hash id
    · rw [hi, hself, hframe'.leases id' hid]
    · rw [hother i hi]
  refine ⟨fun i id' hi => ?_, fun id' => ?_, fun id' => ?_, fun i => ?_⟩
  · by_cases hid : id' = id
    · subst hid
      rw [hother i hi]
      exact H.elsewhere i id' hi
    · rw [hentries i id' hid]
      exact H.elsewhere i id' hi
  · by_cases hid : id' = id
    · subst hid
      rw [hself]
      exact halike.entry
    · rw [hentries _ id' hid, hframe.entries id' hid]
      exact H.entry id'
  · by_cases hid : id' = id
    · subst hid
      rw [hself]
      exact halike.lease
    · rw [hleases _ id' hid, hframe.leases id' hid]
      exact H.lease id'
  · by_cases hi : i = home hash id
    · rw [hi, hself]
      exact halike.nextAccess
    · rw [hother i hi]
      exact UInt64.le_trans (H.nextAccess i) hframe.nextAccess

/-- An operation that removes what satisfies a condition on the contents of an entry. -/
theorem Spread.purge (H : Spread hash ρ e s) (P : EntryId → Entry → Prop) {count : Nat}
    {counts : Fin n → Nat}
    (hP : ∀ id entry entry', entry'.content = entry.content → P id entry' → P id entry)
    (he : Engine.Purges P count e e')
    (hs : ∀ i, Engine.Purges P (counts i) (s.shards i) (s'.shards i)) :
    Spread hash ρ e' s' ∧ count = ∑ i, counts i := by
  have halike := fun id => (H.alike id).purge (hP id) he (hs (home hash id))
  have hspread : Spread hash ρ e' s' := by
    refine ⟨fun i id hi => ?_, fun id => (halike id).entry, fun id => (halike id).lease,
      fun i => ?_⟩
    · have hnone := H.elsewhere i id hi
      have hkept := (hs i).kept id fun entry h => by cases hnone.symm.trans h
      rw [hkept.1, hnone]
    · rw [(hs i).nextAccess, he.nextAccess]
      exact H.nextAccess i
  refine ⟨hspread, ?_⟩
  have hbefore := H.len_eq
  have hafter := hspread.len_eq
  simp only [← (hs _).count, Finset.sum_add_distrib] at hbefore
  have hcount := he.count
  omega

theorem divCeil_le (a n : Nat) [NeZero n] : divCeil a n ≤ a := by
  unfold divCeil
  split
  · exact Nat.div_le_self a n
  · next h =>
    have hn : 1 < n := by
      have := NeZero.pos n
      rcases Nat.lt_or_ge 1 n with hlt | hle
      · exact hlt
      · obtain rfl : n = 1 := by omega
        simp [Nat.mod_one] at h
    have ha : 0 < a := Nat.pos_of_ne_zero fun h₀ => h (by simp [h₀])
    exact Nat.div_lt_self ha hn

namespace Mirrors

theorem memory_eq (H : Mirrors hash ρ e s) :
    e.memoryUsedBytes = ∑ i, (s.shards i).memoryUsedBytes := by
  simp only [fun i => (H.shardedInv.shards i).accounted.memory, H.inv.accounted.memory]
  exact H.spread.sumBy _ fun _ _ _ => Engine.memoryBytes_of_content

theorem memory_le (H : Mirrors hash ρ e s) (i : Fin n) :
    (s.shards i).memoryUsedBytes ≤ e.memoryUsedBytes := by
  rw [H.memory_eq]
  exact Finset.single_le_sum (f := fun i => (s.shards i).memoryUsedBytes)
    (fun _ _ => Nat.zero_le _) (Finset.mem_univ i)

/-- The invariants and the limits are kept by every operation; what is left is what the engines
hold and what they have counted. -/
theorem exec (H : Mirrors hash ρ e s) {op op' : Op}
    (hspread : Spread hash ρ' (e.exec op).2 (s.exec hash op').2)
    (hexpirations : (e.exec op).2.stats.expirations =
      ∑ i, ((s.exec hash op').2.shards i).stats.expirations)
    (hevictions : (e.exec op).2.stats.evictions = 0 ∧
      ∀ i, ((s.exec hash op').2.shards i).stats.evictions = 0)
    (hcounted : (e.exec op).2.stats.expirations + (e.exec op).2.len ≤
      (e.exec op).2.nextAccess.toNat) :
    Mirrors hash ρ' (e.exec op).2 (s.exec hash op').2 where
  inv := H.inv.exec op
  shardedInv := H.shardedInv.exec hash op'
  limits := by
    rw [(Engine.later_exec e op).limits]
    exact AllShards.exec hash op' (fun e₁ part _ h => (Engine.later_exec e₁ part).limits.trans h)
      H.limits
  spread := hspread
  expirations := hexpirations
  evictions := hevictions
  counted := hcounted

end Mirrors

/-- The answer of the sharded engine is that of the one engine, up to the tokens and the budget, and
the engines mirror each other again. No counter of a shard has gone back. -/
structure Answers (hash : String → Bytes → Nat) (ρ : String → String) (op op' : Op) (e : Engine)
    (s : ShardedEngine n) : Prop where
  outcome : (s.exec hash op').1 =
    ((e.exec op).1.renamed ρ).withBudget (divCeil e.limits.maxMemoryBytes n)
  mirrors : Mirrors hash ρ (e.exec op).2 (s.exec hash op').2
  nextAccess : ∀ i, (s.shards i).nextAccess ≤ ((s.exec hash op').2.shards i).nextAccess

/-- An operation on one key, in the one engine and in the shard of the key. -/
theorem Mirrors.answers (H : Mirrors hash ρ e s) (id : EntryId) {op op' : Op} {f' : Engine}
    (hspread : Spread hash ρ' e s)
    (hshards : (s.exec hash op').2.shards = Function.update s.shards (home hash id) f')
    (hdoes : Engine.Does (Mutation.Only id) e (e.exec op).2)
    (hdoes' : Engine.Does (Mutation.Only id) (s.shards (home hash id)) f')
    (hcount : (e.exec op).2.nextAccess.toNat < UInt64.maxNat)
    (hout : (s.exec hash op').1 =
      ((e.exec op).1.renamed ρ').withBudget (divCeil e.limits.maxMemoryBytes n))
    (halike : Engine.Alike ρ' id (e.exec op).2 f') : Answers hash ρ' op op' e s := by
  have hframe := hdoes.frame
  have hself : (s.exec hash op').2.shards (home hash id) = f' := by
    rw [hshards, Function.update_self]
  have hother : ∀ i, i ≠ home hash id → (s.exec hash op').2.shards i = s.shards i := by
    intro i hi
    rw [hshards, Function.update_of_ne hi]
  have hstats : ∀ i, ((s.exec hash op').2.shards i).stats = (s.shards i).stats := by
    intro i
    by_cases hi : i = home hash id
    · rw [hi, hself, hdoes'.frame.stats]
    · rw [hother i hi]
  refine ⟨hout, H.exec (hspread.onKey hshards hframe hdoes'.frame halike) ?_ ?_ ?_, fun i => ?_⟩
  · simp only [hstats, hframe.stats]
    exact H.expirations
  · simp only [hstats, hframe.stats]
    exact H.evictions
  · have hlen := hframe.len hcount
    have hcounted := H.counted
    rw [hframe.stats]
    omega
  · by_cases hi : i = home hash id
    · rw [hi, hself]
      exact hdoes'.nextAccess_le
    · rw [hother i hi]
      exact UInt64.le_refl _

/-! ## Operations on one key -/

section
variable {ns : String} {key : Bytes}

/-- A read of a key, with or without an access stamp. -/
theorem answers_read (H : Mirrors hash ρ e s) {R : Type} {op : Op} (read : Engine → R × Engine)
    (wrap : R → Outcome) (hexec : e.exec op = (read e).map wrap fun e => e)
    (hshards : s.exec hash op = (s.onShard (home hash ⟨ns, key⟩) read).map wrap fun s => s)
    (hwrap : ∀ r, ((wrap r).renamed ρ).withBudget (divCeil e.limits.maxMemoryBytes n) = wrap r)
    (hdoes : ∀ e, Engine.Does (Mutation.Only ⟨ns, key⟩) e (read e).2)
    (halike : (read (s.shards (home hash ⟨ns, key⟩))).1 = (read e).1 ∧
      Engine.Alike ρ ⟨ns, key⟩ (read e).2 (read (s.shards (home hash ⟨ns, key⟩))).2)
    (hcount : (e.exec op).2.nextAccess.toNat < UInt64.maxNat) : Answers hash ρ op op e s := by
  have hafter : (e.exec op).2 = (read e).2 := congrArg Prod.snd hexec
  refine H.answers ⟨ns, key⟩ H.spread (congrArg (·.2.shards) hshards) (hafter ▸ hdoes e) (hdoes _)
    hcount ?_ (hafter ▸ halike.2)
  rw [hshards, hexec]
  exact (congrArg wrap halike.1).trans (hwrap _).symm

theorem answers_get (H : Mirrors hash ρ e s)
    (hnow : (s.shards (home hash ⟨ns, key⟩)).clock.nowMs = e.clock.nowMs)
    (hcount : (e.exec (.get ns key)).2.nextAccess.toNat < UInt64.maxNat) :
    Answers hash ρ (.get ns key) (.get ns key) e s :=
  answers_read H (·.get ns key) .get rfl rfl (fun _ => rfl)
    (Engine.does_getRefInner_only ns key true _)
    ((H.spread.alike ⟨ns, key⟩).getRefInner hnow true _) hcount

theorem answers_delete (H : Mirrors hash ρ e s)
    (hcount : (e.exec (.delete ns key)).2.nextAccess.toNat < UInt64.maxNat) :
    Answers hash ρ (.delete ns key) (.delete ns key) e s := by
  have halike := (H.spread.alike ⟨ns, key⟩).dropLease
  have hdoes := Engine.does_delete_only ns key
  refine H.answers ⟨ns, key⟩ H.spread (updateTagRoutes_shards ..) (hdoes _) (hdoes _) hcount
    (congrArg Outcome.delete ?_) halike.removeEntry
  exact (Engine.removeEntry_fst _ _).trans (halike.isSome_eq.trans
    (Engine.removeEntry_fst _ _).symm)

theorem answers_startLease (H : Mirrors hash ρ e s) (hspread : Spread hash ρ' e s)
    {leaseTtlMs : UInt64} (hclock : (s.shards (home hash ⟨ns, key⟩)).clock = e.clock)
    (hρ : Engine.Alike.Names ρ' (e.startLease ns key leaseTtlMs).1
      ((s.shards (home hash ⟨ns, key⟩)).startLease ns key leaseTtlMs).1)
    (hcount : (e.exec (.startLease ns key leaseTtlMs)).2.nextAccess.toNat < UInt64.maxNat) :
    Answers hash ρ' (.startLease ns key leaseTtlMs) (.startLease ns key leaseTtlMs) e s := by
  obtain ⟨hout, halike⟩ := (hspread.alike ⟨ns, key⟩).startLease hclock hρ
  have hdoes := Engine.does_startLease_only ns key leaseTtlMs
  exact H.answers ⟨ns, key⟩ hspread rfl (hdoes _) (hdoes _) hcount
    (congrArg Outcome.startLease hout) halike

end

/-! ## Writes -/

/-- What is written fits in a shard. -/
theorem Mirrors.shares (H : Mirrors hash ρ e s) {command : PutCommand}
    (hfits : command.value.length ≤ e.limits.maxValueBytes →
      estimateEntryMemory command.id command.value command.tags ≤ e.limits.maxMemoryBytes →
        e.chargedWith command ≤ divCeil e.limits.maxMemoryBytes n) :
    Engine.Alike.Shares e (s.shards (home hash command.id)) command := by
  have hlimits := H.limits (home hash command.id)
  refine ⟨H.inv, H.shardedInv.shards _, ?_, ?_, H.memory_le _, ?_⟩
  · rw [hlimits]
    rfl
  · rw [hlimits]
    exact divCeil_le _ n
  · rw [hlimits]
    exact hfits

theorem answers_put (H : Mirrors hash ρ e s) {command : PutCommand} {o o' : IterOrder}
    (hfits : Op.Fits (divCeil e.limits.maxMemoryBytes n) e (.put o command))
    (hnow : (s.shards (home hash command.id)).clock.nowMs = e.clock.nowMs)
    (hcount : (e.exec (.put o command)).2.nextAccess.toNat < UInt64.maxNat) :
    Answers hash ρ (.put o command) (.put o' command) e s := by
  have halike := H.spread.alike command.id
  have hshares := H.shares fun hvalue hest => hfits (by
    obtain ⟨outcome, hok⟩ := (Engine.put_isOk_iff H.inv o command).mpr ⟨hvalue, hest⟩
    rw [hok]
    rfl)
  obtain ⟨hroom, hroom'⟩ := halike.room hshares
  obtain ⟨hout, halike'⟩ := halike.put hshares hnow o o'
  rw [H.limits] at hout
  exact H.answers command.id H.spread (updateTagRoutes_shards ..)
    (Engine.does_put_of_room H.inv o command hroom)
    (Engine.does_put_of_room (H.shardedInv.shards _) o' command hroom') hcount
    (congrArg Outcome.put hout) halike'

theorem answers_completeLease (H : Mirrors hash ρ e s) {command : CompleteLeaseCommand}
    {o o' : IterOrder}
    (hfits : Op.Fits (divCeil e.limits.maxMemoryBytes n) e (.completeLease o command))
    (hclock : (s.shards (home hash command.id)).clock = e.clock)
    (htoken : ∀ lease, e.leases.lookup command.id = some lease →
      (ρ lease.token = ρ command.leaseToken ↔ lease.token = command.leaseToken))
    (hcount : (e.exec (.completeLease o command)).2.nextAccess.toNat < UInt64.maxNat) :
    Answers hash ρ (.completeLease o command)
      (.completeLease o' { command with leaseToken := ρ command.leaseToken }) e s := by
  have halike := H.spread.alike command.id
  have hshares : ∀ lease, e.leases.lookup command.id = some lease →
      e.clock.nowMs ≤ lease.expiresAtMs → lease.token = command.leaseToken →
        Engine.Alike.Shares e (s.shards (home hash command.id)) command.toPut := by
    intro lease hl hle heq
    refine H.shares fun hvalue hest => hfits ?_
    obtain ⟨outcome, hok, -⟩ := Engine.completeLease_accepted H.inv o command hl heq hle hvalue hest
    rw [hok]
    rfl
  have hdoes : Engine.Does (Mutation.Only command.id) e (e.completeLease o command).2 := by
    refine Engine.does_completeLease_of_room H.inv o command fun lease hl hle heq => ?_
    exact (halike.room (hshares lease hl hle heq)).1
  have hdoes' : Engine.Does (Mutation.Only command.id) (s.shards (home hash command.id))
      ((s.shards (home hash command.id)).completeLease o'
        { command with leaseToken := ρ command.leaseToken }).2 := by
    refine Engine.does_completeLease_of_room (H.shardedInv.shards _) o'
      { command with leaseToken := ρ command.leaseToken } fun lease' hl' hle heq => ?_
    -- the lease that the shard finds is that of the one engine
    have hlease := halike.lease
    rw [show (s.shards (home hash command.id)).leases.lookup command.id = some lease' from hl']
      at hlease
    obtain ⟨lease, hl, rfl⟩ := Option.map_eq_some_iff.mp hlease.symm
    rw [hclock] at hle
    exact (halike.room (hshares lease hl hle ((htoken lease hl).mp heq))).2
  have hshares' : ∀ lease, e.leases.lookup command.id = some lease →
      e.clock.nowMs ≤ lease.expiresAtMs → lease.token = command.leaseToken →
        Engine.Alike.Shares (e.tick.dropLease command.id)
          ((s.shards (home hash command.id)).tick.dropLease command.id) command.toPut := by
    intro lease hl hle heq
    obtain ⟨hinv, hinv', hvalue, hmax, hmemory, hfits'⟩ := hshares lease hl hle heq
    refine ⟨hinv.tick.dropLease _, hinv'.tick.dropLease _, hvalue, hmax, hmemory, ?_⟩
    rw [Engine.chargedWith_congr e (e.tick.dropLease command.id) rfl rfl]
    exact hfits'
  obtain ⟨hout, halike'⟩ := halike.completeLease hclock htoken hshares' o o'
  rw [H.limits] at hout
  exact H.answers command.id H.spread (updateTagRoutes_shards ..) hdoes hdoes' hcount
    (congrArg Outcome.completeLease hout) halike'

/-! ## Operations on many keys -/

/-- The reading for each key of a batch is the next one of its shard. -/
def SameBatchReadings (hash : String → Bytes → Nat) (ns : String) :
    List Bytes → Clock → (Fin n → Clock) → Prop
  | [], _, _ => True
  | key :: keys, clock, clocks =>
    (clocks (home hash ⟨ns, key⟩)).nowMs = clock.nowMs ∧
      SameBatchReadings hash ns keys clock.tick
        (Function.update clocks (home hash ⟨ns, key⟩) (clocks (home hash ⟨ns, key⟩)).tick)

theorem answers_batchGet {ns : String} {keys : List Bytes} (H : Mirrors hash ρ e s)
    (hread : SameBatchReadings hash ns keys e.clock fun i => (s.shards i).clock)
    (hcount : (e.exec (.batchGet ns keys)).2.nextAccess.toNat < UInt64.maxNat) :
    Answers hash ρ (.batchGet ns keys) (.batchGet ns keys) e s := by
  induction keys generalizing e s with
  | nil => exact ⟨rfl, H, fun _ => UInt64.le_refl _⟩
  | cons key keys ih =>
    obtain ⟨hnow, hread'⟩ := hread
    have hle : (e.get ns key).2.nextAccess ≤ (e.batchGet ns (key :: keys)).2.nextAccess :=
      (Engine.Does.batchGet (P := fun _ => True) trivial ns keys (fun _ => trivial)
        (fun _ _ => trivial) (e.get ns key).2).nextAccess_le
    rw [UInt64.le_iff_toNat_le] at hle
    have hget : Answers hash ρ (.get ns key) (.get ns key) e s :=
      answers_get H hnow (Nat.lt_of_le_of_lt hle hcount)
    have hclocks : (fun i => ((s.get hash ns key).2.shards i).clock) =
        Function.update (fun i => (s.shards i).clock) (home hash ⟨ns, key⟩)
          (s.shards (home hash ⟨ns, key⟩)).clock.tick := by
      funext i
      by_cases hi : i = home hash ⟨ns, key⟩
      · subst hi
        rw [Function.update_self]
        exact (congrArg Engine.clock (Function.update_self ..)).trans (Engine.get_clock ..)
      · rw [Function.update_of_ne hi]
        exact congrArg Engine.clock (Function.update_of_ne hi ..)
    rw [← hclocks, ← Engine.get_clock e ns key] at hread'
    have hrest : Answers hash ρ (.batchGet ns keys) (.batchGet ns keys) (e.get ns key).2
        (s.get hash ns key).2 := ih hget.mirrors hread' hcount
    refine ⟨?_, hrest.mirrors, fun i => UInt64.le_trans (hget.nextAccess i) (hrest.nextAccess i)⟩
    exact congrArg Outcome.batchGet (congrArg₂ List.cons (Outcome.get.inj hget.outcome)
      (Outcome.batchGet.inj hrest.outcome))

theorem answers_reclaimExpiredBudget (H : Mirrors hash ρ e s)
    (hnow : ∀ i, (s.shards i).clock.nowMs = e.clock.nowMs)
    (hcount : (e.exec (.reclaimExpiredBudget usizeMax)).2.nextAccess.toNat < UInt64.maxNat) :
    Answers hash ρ (.reclaimExpiredBudget usizeMax) (.reclaimExpiredBudget usizeMax) e s := by
  have hcounted := H.counted
  have hlen : e.len < usizeMax := by
    have hmax : UInt64.maxNat = usizeMax := rfl
    have hle := (Engine.exec_does e (.reclaimExpiredBudget usizeMax)).nextAccess_le
    rw [UInt64.le_iff_toNat_le] at hle
    omega
  have hreclaims : Engine.Reclaims e.clock.nowMs (e.removeExpired usizeMax).1 e
      (e.removeExpired usizeMax).2 := Engine.reclaims_removeExpired H.inv hlen
  have hlens : ((List.finRange n).map fun i => (s.shards i).len).sum < usizeMax := by
    rw [← Fin.sum_univ_def, ← H.spread.len_eq]
    exact hlen
  obtain ⟨counts, hsum, hshards⟩ := reclaims_reclaimShards (List.nodup_finRange n)
    H.shardedInv.shards hnow hlens
  rw [← Fin.sum_univ_def] at hsum
  have hshard : ∀ i, Engine.Reclaims e.clock.nowMs (counts i) (s.shards i)
      ((s.reclaimExpiredBudget usizeMax).2.shards i) := fun i => hshards i (List.mem_finRange i)
  obtain ⟨hspread, hcounts⟩ := H.spread.purge (Engine.Removable e.clock.nowMs)
    (fun _ _ _ => Engine.Removable.of_content) hreclaims.purges fun i => (hshard i).purges
  have hstats : (e.exec (.reclaimExpiredBudget usizeMax)).2.stats = _ := hreclaims.stats
  have hstats' : ∀ i, ((s.exec hash (.reclaimExpiredBudget usizeMax)).2.shards i).stats = _ :=
    fun i => (hshard i).stats
  refine ⟨congrArg Outcome.reclaimExpiredBudget (hsum.trans hcounts.symm),
    H.exec hspread ?_ ?_ ?_, fun i => UInt64.le_of_eq (hshard i).purges.nextAccess.symm⟩
  · simp only [hstats, hstats', Finset.sum_add_distrib, ← hcounts, H.expirations]
  · simp only [hstats, hstats']
    exact H.evictions
  · have hpurged : (e.removeExpired usizeMax).1 +
        (e.exec (.reclaimExpiredBudget usizeMax)).2.len = e.len := hreclaims.purges.count
    have hnext : (e.exec (.reclaimExpiredBudget usizeMax)).2.nextAccess = e.nextAccess :=
      hreclaims.purges.nextAccess
    rw [hstats, hnext]
    dsimp only
    omega

theorem answers_invalidateTag (H : Mirrors hash ρ e s) (o o' : IterOrder) (ns tag : String) :
    Answers hash ρ (.invalidateTag o ns tag) (.invalidateTag o' ns tag) e s := by
  have hpurges := Engine.purges_invalidateTag H.inv o ns tag
  obtain ⟨indices, hnodup, hindices, heq⟩ := invalidateTag_spec s o' ns tag
  have hshards : ∀ i, (s.invalidateTag o' ns tag).2.shards i =
      if i ∈ indices then ((s.shards i).invalidateTag o' ns tag).2 else s.shards i := by
    intro i
    rw [heq]
  -- a shard without a route to it has no entry with the tag
  have hshard : ∀ i, Engine.Purges (Engine.HasTag ns tag)
      (if i ∈ indices then ((s.shards i).invalidateTag o' ns tag).1 else 0) (s.shards i)
      ((s.invalidateTag o' ns tag).2.shards i) := by
    intro i
    rw [hshards]
    split
    · exact Engine.purges_invalidateTag (H.shardedInv.shards i) o' ns tag
    · next hi =>
      refine .of_none fun id entry hl hhas => hi ((hindices i).mpr ?_)
      exact H.shardedInv.routed i id _ ⟨entry, hl, hhas⟩
  obtain ⟨hspread, hcounts⟩ := H.spread.purge (Engine.HasTag ns tag)
    (fun _ _ _ => Engine.HasTag.of_content) hpurges hshard
  have hsum : (s.invalidateTag o' ns tag).1 =
      ∑ i, if i ∈ indices then ((s.shards i).invalidateTag o' ns tag).1 else 0 := by
    rw [heq]
    dsimp only
    rw [← List.sum_toFinset _ hnodup]
    simp only [← List.mem_toFinset, Finset.sum_ite_mem, Finset.univ_inter]
  have hstats : (e.exec (.invalidateTag o ns tag)).2.stats = e.stats :=
    Engine.invalidateTag_stats e o ns tag
  have hstats' : ∀ i, ((s.exec hash (.invalidateTag o' ns tag)).2.shards i).stats =
      (s.shards i).stats := by
    intro i
    show ((s.invalidateTag o' ns tag).2.shards i).stats = _
    rw [hshards]
    split
    · exact Engine.invalidateTag_stats ..
    · rfl
  refine ⟨congrArg Outcome.invalidateTag (hsum.trans hcounts.symm), H.exec hspread ?_ ?_ ?_,
    fun i => UInt64.le_of_eq (hshard i).nextAccess.symm⟩
  · simp only [hstats, hstats', H.expirations]
  · simp only [hstats, hstats']
    exact H.evictions
  · have hlen := hpurges.count
    have hnext : (e.exec (.invalidateTag o ns tag)).2.nextAccess = e.nextAccess :=
      hpurges.nextAccess
    have hafter : (e.exec (.invalidateTag o ns tag)).2.len = (e.invalidateTag o ns tag).2.len := rfl
    have hcounted := H.counted
    rw [hstats, hnext, hafter]
    omega

end
end ShardedEngine
end Cachebox

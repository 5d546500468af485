import Cachebox.Engine.Eviction
import Cachebox.Theory.Recency

/-!
# The victims of the eviction are old

Every accepted write and every recorded read stamps its entry with the counter of accesses. Lease
tokens use up numbers of the same counter, and no other update gives out a stamp. So the stamps rank
the stored entries as the log of the accesses does (`Ranked`), and the entry with the least stamp in
a sample is older than the rest of the sample.
-/

namespace Cachebox

/-- The entry a read has found. -/
def Read.found (read : Read) : List EntryId :=
  match read.seen with
  | .value _ _ => [read.id]
  | .absent => []

/-- The entries whose accesses an event records, in the order of the accesses. -/
def EngineEvent.accesses (ev : EngineEvent) : List EntryId :=
  match ev.action with
  | .getRefWithoutAccessUpdate _ _ => []
  | _ => (ev.written.map (·.1)).toList ++ ev.reads.flatMap Read.found

/-- The recorded accesses, the latest first. -/
def accessLog (history : List EngineEvent) : List EntryId :=
  history.flatMap fun ev => ev.accesses.reverse

/-- The mutation gives out an access stamp. -/
def Mutation.Stamps : Mutation → Prop
  | .access _ | .store _ _ => True
  | _ => False

/-- The mutation uses up a number of the counter of accesses. -/
def Mutation.Counts : Mutation → Prop
  | .access _ | .store _ _ | .grantLease _ _ => True
  | _ => False

theorem Mutation.Stamps.counts {m : Mutation} (h : m.Stamps) : m.Counts := by
  cases m with
  | access | store => trivial
  | _ => exact h.elim

namespace Engine

variable {e e' e'' : Engine} {id : EntryId} {entry : Entry} {log ids ids' : List EntryId}

/-- The access stamp of a stored entry. -/
def stamp (e : Engine) (id : EntryId) : Option Nat :=
  (e.entries.lookup id).map (·.lastAccess.toNat)

theorem stamp_of_lookup (hl : e.entries.lookup id = some entry) :
    e.stamp id = some entry.lastAccess.toNat := by
  rw [stamp, hl]
  rfl

/-- As long as the counter is not used up, the stamps rank the entries as the log does. -/
def Ranked (log : List EntryId) (e : Engine) : Prop :=
  e.nextAccess.toNat < UInt64.maxNat → Recency.Stamped log e.stamp e.nextAccess.toNat

theorem ranked_withClockAndLimits (clock : Clock) (limits : EngineLimits) :
    Ranked [] (withClockAndLimits clock limits) :=
  fun _ => Recency.stamped_empty _

/-! ## What a mutation does to the ranking -/

theorem stamp_apply {m : Mutation} (hm : ¬ m.Stamps) {t : Nat}
    (h : (m.apply e).stamp id = some t) : e.stamp id = some t := by
  cases m with
  | access | store => exact absurd trivial hm
  | remove id' =>
    rw [Mutation.apply, stamp, removeEntry_entries, HashMap.lookup_erase'] at h
    split at h
    · cases h
    · exact h
  | tick | dropLease | grantLease | setExpiryIndex | hideTag | setStats => exact h

theorem Ranked.apply (h : Ranked log e) {m : Mutation} (hm : ¬ m.Stamps) :
    Ranked log (m.apply e) := by
  intro hcount
  have hle := UInt64.le_iff_toNat_le.mp (nextAccess_le_apply e m)
  exact (h (Nat.lt_of_le_of_lt hle hcount)).forget (fun id t => stamp_apply hm) hle

theorem Ranked.does (h : Ranked log e) (hdoes : Does (¬ ·.Stamps) e e') : Ranked log e' := by
  induction hdoes with
  | refl => exact h
  | step _ hm ih => exact ih.apply hm

theorem Does.nextAccess_eq (h : Does (¬ ·.Counts) e e') : e'.nextAccess = e.nextAccess := by
  refine h.rel (R := fun e e' => e'.nextAccess = e.nextAccess) (fun _ => rfl)
    (fun h h' => h'.trans h) fun e m hm => ?_
  cases m with
  | access | store | grantLease => exact absurd trivial hm
  | remove id => exact removeEntry_nextAccess e id
  | tick | dropLease | setExpiryIndex | hideTag | setStats => rfl

theorem Does.unstamped (h : Does (¬ ·.Counts) e e') : Does (¬ ·.Stamps) e e' :=
  h.mono fun _ hm hstamps => hm hstamps.counts

/-- An entry that is stored with the next stamp is the latest one. -/
theorem Ranked.insert (h : Ranked log e)
    (hself : e'.stamp id = some e.nextAccess.toNat)
    (hothers : ∀ id', id' ≠ id → e'.stamp id' = e.stamp id')
    (hnext : e'.nextAccess = e.nextAccess.saturatingAdd 1) : Ranked (id :: log) e' := by
  intro hcount
  rw [hnext] at hcount ⊢
  have hlt := UInt64.lt_iff_toNat_lt.mp (UInt64.lt_saturatingAdd_one hcount)
  exact (h (Nat.lt_trans hlt hcount)).access hself hothers hlt

theorem Ranked.recordAccess (h : Ranked log e) (hl : e.entries.lookup id = some entry) :
    Ranked (id :: log) (e.recordAccess id) := by
  rw [← touch_eq_recordAccess hl]
  refine h.insert ?_ (fun id' hne => ?_) rfl
  · simp [stamp, touch]
  · simp [stamp, touch, hne]

theorem Ranked.storeEntry (h : Ranked log e) (hlast : entry.lastAccess = e.nextAccess) :
    Ranked (id :: log) (e.storeEntry id entry) := by
  refine h.insert ?_ (fun id' hne => ?_) rfl
  · simp [stamp, Engine.storeEntry, hlast]
  · simp [stamp, Engine.storeEntry, hne]

/-! ## What an operation does to the ranking -/

/-- The step from `e` to `e'` accesses `ids`, the latest first. -/
def Accesses (ids : List EntryId) (e e' : Engine) : Prop :=
  ∀ log, Ranked log e → Ranked (ids ++ log) e'

theorem Accesses.of_does (h : Does (¬ ·.Stamps) e e') : Accesses [] e e' :=
  fun _ hranked => hranked.does h

theorem Accesses.trans (h : Accesses ids e e') (h' : Accesses ids' e' e'') :
    Accesses (ids' ++ ids) e e'' := by
  intro log hranked
  rw [List.append_assoc]
  exact h' _ (h log hranked)

theorem Accesses.quiet (h : Accesses ids e e') (hdoes : Does (¬ ·.Stamps) e' e'') :
    Accesses ids e e'' :=
  fun log hranked => (h log hranked).does hdoes

theorem accesses_tick (e : Engine) : Accesses [] e e.tick := .of_does (.single (m := .tick) nofun)

theorem Accesses.recordAccess (h : Accesses [] e e') (hl : e'.entries.lookup id = some entry) :
    Accesses [id] e (e'.recordAccess id) :=
  fun log hranked => (h log hranked).recordAccess hl

theorem accesses_getRefInner {R : Type} (e : Engine) (ns : String) (key : Bytes)
    (map : GetOutcomeRef → R) {seen : R → Seen}
    (hseen : ∀ outcome, seen (map outcome) = outcome.seen) :
    Accesses (Read.found ⟨⟨ns, key⟩, e.clock.nowMs, seen (e.getRefInner ns key true map).1⟩) e
      (e.getRefInner ns key true map).2 := by
  cases hl : e.entries.lookup ⟨ns, key⟩ with
  | none =>
    simp only [getRefInner, tick_entries, hl, Read.found, hseen]
    exact accesses_tick e
  | some entry =>
    have haccess : Accesses [⟨ns, key⟩] e (e.tick.recordAccess ⟨ns, key⟩) :=
      (accesses_tick e).recordAccess hl
    simp only [getRefInner, tick_entries, hl, touch_eq_recordAccess (e := e.tick) hl]
    cases hstate : entryStateAt entry e.clock.nowMs with
    | missing => exact absurd hstate (entryStateAt_ne_missing _ _)
    | expired =>
      simp only [Read.found, hseen]
      exact (accesses_tick e).quiet (.single (m := .remove ⟨ns, key⟩) id)
    | fresh | stale =>
      simp only [Read.found, hseen]
      exact haccess

/-- A read that is not recorded stamps nothing. -/
theorem does_getRefInner_unrecorded {R : Type} (e : Engine) (ns : String) (key : Bytes)
    (map : GetOutcomeRef → R) : Does (¬ ·.Stamps) e (e.getRefInner ns key false map).2 := by
  have htick : Does (¬ ·.Stamps) e e.tick := .single (m := .tick) nofun
  unfold getRefInner
  dsimp only
  split
  · exact htick
  · split
    · exact htick
    · exact htick.step (m := .remove ⟨ns, key⟩) nofun
    · exact htick
    · exact htick

theorem accesses_get (e : Engine) (ns : String) (key : Bytes) :
    Accesses (Read.found ⟨⟨ns, key⟩, e.clock.nowMs, (e.get ns key).1.seen⟩) e (e.get ns key).2 :=
  accesses_getRefInner e ns key _ fun outcome => by cases outcome <;> rfl

theorem Read.found_reverse (read : Read) : read.found.reverse = read.found := by
  unfold Read.found
  split <;> rfl

theorem accesses_batchGet (e : Engine) (ns : String) (keys : List Bytes) :
    Accesses ((batchReads ns e.clock keys (e.batchGet ns keys).1).flatMap Read.found).reverse e
      (e.batchGet ns keys).2 := by
  induction keys generalizing e with
  | nil => exact .of_does .refl
  | cons key keys ih =>
    have hrest := (accesses_get e ns key).trans (ih (e.get ns key).2)
    rw [get_clock] at hrest
    simp only [batchGet, batchReads, List.flatMap_cons, List.reverse_append, Read.found_reverse]
    exact hrest

theorem accesses_startLease (e : Engine) (ns : String) (key : Bytes) (leaseTtlMs : UInt64) :
    Accesses (Read.found ⟨⟨ns, key⟩, (e.activeLease ⟨ns, key⟩).2.clock.nowMs,
      (e.startLease ns key leaseTtlMs).1.seen⟩) e (e.startLease ns key leaseTtlMs).2 := by
  have hactive : Does (¬ ·.Stamps) e (e.activeLease ⟨ns, key⟩).2 := .activeLease nofun _ e
  have htick := hactive.step (m := .tick) nofun
  have hlookup := congrArg (AList.lookup ⟨ns, key⟩) (activeLease_entries e ⟨ns, key⟩)
  cases hl : e.entries.lookup ⟨ns, key⟩ with
  | none =>
    rw [startLease_of_missing hl]
    simp only [Read.found, seen_startLeaseForMissing]
    exact .of_does (hactive.trans (.startLeaseForMissing nofun nofun _))
  | some entry =>
    rw [hl] at hlookup
    have haccess := (Accesses.of_does htick).recordAccess hlookup
    cases hstate : entryStateAt entry (e.activeLease ⟨ns, key⟩).2.clock.nowMs with
    | missing => exact absurd hstate (entryStateAt_ne_missing _ _)
    | fresh =>
      rw [startLease_of_fresh hl hstate]
      exact haccess
    | stale =>
      rw [startLease_of_stale hl hstate]
      dsimp only
      split
      · exact haccess
      · exact haccess.quiet (.single (m := .grantLease ⟨ns, key⟩ leaseTtlMs) nofun)
    | expired =>
      rw [startLease_of_expired hl hstate]
      dsimp only
      split
      · exact .of_does htick
      · simp only [Read.found, seen_startLeaseForMissing]
        exact .of_does ((htick.step (m := .remove ⟨ns, key⟩) nofun).trans
          (.startLeaseForMissing nofun nofun _))

/-- Up to the moment when the new entry is stored, a put stamps nothing. -/
theorem does_dropAndReclaim (e : Engine) (id : EntryId) (entryMemoryBytes : Nat) :
    Does (¬ ·.Counts) e (e.tick.dropAndReclaim id entryMemoryBytes) :=
  ((Does.single (m := .tick) nofun).step (m := .remove id) nofun).trans
    (.dropAndReclaim nofun (fun _ => nofun) (fun _ => nofun) (fun _ => nofun) _ _ _)

/-- An accepted put makes room and then stores its entry. -/
theorem put_ok_does (H : e.Inv) {o : IterOrder} {command : PutCommand} {outcome : PutOutcome}
    (h : (e.put o command).1 = .ok outcome) :
    ∃ room, Does (¬ ·.Counts) e room ∧ room.entries.lookup command.id = none ∧
      (e.put o command).2 =
        room.storeEntry command.id (command.entry e.clock.nowMs room.nextAccess) := by
  rcases put_cases H o command with
    ⟨-, heq⟩ | ⟨-, -, heq⟩ | ⟨-, -, evicted, room, hroom, -, -, hnone, -, heq⟩
  · rw [heq] at h; cases h
  · rw [heq] at h; cases h
  have hdoes := (does_dropAndReclaim e command.id
    (estimateEntryMemory command.id command.value command.tags)).trans
      (.evictUntilFits (fun _ => nofun) (fun _ => nofun) o _
        (estimateEntryMemory command.id command.value command.tags))
  rw [← makeRoom, hroom] at hdoes
  exact ⟨room, hdoes, hnone, congrArg Prod.snd heq⟩

theorem accesses_put_error (H : e.Inv) {o : IterOrder} {command : PutCommand} {error : PutError}
    (h : (e.put o command).1 = .error error) : Accesses [] e (e.put o command).2 := by
  refine .of_does ((does_put_error H h).mono ?_)
  rintro _ rfl
  nofun

theorem accesses_put_ok (H : e.Inv) {o : IterOrder} {command : PutCommand} {outcome : PutOutcome}
    (h : (e.put o command).1 = .ok outcome) : Accesses [command.id] e (e.put o command).2 := by
  obtain ⟨room, hdoes, -, heq⟩ := put_ok_does H h
  rw [heq]
  exact fun log hranked => (hranked.does hdoes.unstamped).storeEntry rfl

/-- A lease completion that fails leaves the stamps alone. -/
theorem accesses_completeLease_error (H : e.Inv) {o : IterOrder} {command : CompleteLeaseCommand}
    {error : CompleteLeaseError} (h : (e.completeLease o command).1 = .error error) :
    Accesses [] e (e.completeLease o command).2 := by
  refine .of_does ((does_completeLease_error H h).mono ?_)
  rintro _ (rfl | rfl) <;> nofun

/-- A single read accesses what it has found. -/
theorem accesses_read {read : Read} (h : Accesses read.found e e') :
    Accesses ([read].flatMap Read.found).reverse e e' := by
  rw [List.flatMap_singleton, Read.found_reverse]
  exact h

/-- An operation that neither reads nor writes a key stamps nothing. -/
theorem accesses_of_allows {op : Op} (hreads : ∀ id, ¬ op.Reads id)
    (hwrites : ∀ id, ¬ op.Writes id) : Accesses [] e (e.exec op).2 := by
  refine .of_does ((exec_does e op).mono fun m hm hstamps => ?_)
  cases m with
  | access id => exact hreads id hm
  | store id entry => exact hwrites id hm
  | tick | remove | dropLease | grantLease | setExpiryIndex | hideTag | setStats => exact hstamps

/-- Every operation accesses the entries its event says. -/
theorem accesses_exec (H : e.Inv) (op : Op) :
    Accesses (EngineEvent.accesses (Machine.event exec e op)).reverse e (e.exec op).2 := by
  cases op with
  | put o command =>
    cases hresult : (e.put o command).1 with
    | ok outcome =>
      simp only [EngineEvent.accesses, EngineEvent.written, Machine.event, exec, Prod.map, hresult]
      exact accesses_put_ok H hresult
    | error error =>
      simp only [EngineEvent.accesses, EngineEvent.written, Machine.event, exec, Prod.map, hresult]
      exact accesses_put_error H hresult
  | completeLease o command =>
    cases hresult : (e.completeLease o command).1 with
    | ok outcome =>
      simp only [EngineEvent.accesses, EngineEvent.written, Machine.event, exec, Prod.map, hresult]
      have hput := completeLease_ok hresult
      have hdrop : Does (¬ ·.Stamps) e (e.tick.dropLease command.id) :=
        (Does.single (m := .tick) id).step (m := .dropLease command.id) id
      have haccess := (Accesses.of_does hdrop).trans
        (accesses_put_ok (H.tick.dropLease command.id) (congrArg Prod.fst hput))
      rw [hput] at haccess
      exact haccess
    | error error =>
      simp only [EngineEvent.accesses, EngineEvent.written, Machine.event, exec, Prod.map, hresult]
      exact accesses_completeLease_error H hresult
  | get ns key => exact accesses_read (accesses_get e ns key)
  | getRef ns key => exact accesses_read (accesses_getRefInner e ns key id fun _ => rfl)
  | getRefWithoutAccessUpdate ns key =>
    exact .of_does (does_getRefInner_unrecorded e ns key id)
  | batchGet ns keys => exact accesses_batchGet e ns keys
  | startLease ns key leaseTtlMs => exact accesses_read (accesses_startLease e ns key leaseTtlMs)
  | delete | invalidateTag | reclaimExpiredBudget =>
    exact accesses_of_allows (fun _ => id) (fun _ => id)

theorem nextAccess_le_run (e : Engine) (ops : List Op) : e.nextAccess ≤ (e.run ops).nextAccess :=
  Machine.run_invariant (I := fun e' => e.nextAccess ≤ e'.nextAccess)
    (fun e' op h => UInt64.le_trans h (exec_does e' op).nextAccess_le) (UInt64.le_refl _) ops

theorem ranked_run (clock : Clock) (limits : EngineLimits) (ops : List Op) :
    Ranked (accessLog (Machine.history exec (withClockAndLimits clock limits) ops))
      ((withClockAndLimits clock limits).run ops) := by
  refine (Machine.history_induction (R := fun h (e : Engine) => e.Inv ∧ Ranked (accessLog h) e)
    ⟨inv_withClockAndLimits clock limits, ranked_withClockAndLimits clock limits⟩
    (fun h e op ih => ⟨ih.1.exec op, ?_⟩) ops).2
  rw [accessLog, List.flatMap_cons]
  exact accesses_exec ih.1 op _ ih.2

/-! ## The victims -/

/-- The choices of the eviction loop: the state in which a victim is chosen, and the victim. -/
def evictionSteps (o : IterOrder) (e : Engine) (incomingBytes : Nat) : List (Engine × EntryId) :=
  if e.memoryUsedBytes + incomingBytes > e.limits.maxMemoryBytes then
    match e.leastRecentlyUsedEntry o with
    | none => []
    | some id =>
      match _h : e.removeEntry id with
      | (true, e') => (e, id) :: evictionSteps o e'.countEviction incomingBytes
      | (false, _) => []
  else []
termination_by e.entries.entries.length
decreasing_by simpa [countEviction] using removeEntry_length_lt _h

theorem evictionSteps_victims (o : IterOrder) (e : Engine) (incomingBytes : Nat) :
    (evictionSteps o e incomingBytes).map (·.2) = evictVictims o e incomingBytes := by
  fun_induction evictionSteps o e incomingBytes with
  | case1 e hover hlru =>
    unfold evictVictims
    simp [hover, hlru]
  | case2 e hover id hlru e' heq ih =>
    unfold evictVictims
    rw [if_pos hover]
    simp only [hlru]
    split
    · next e₁ heq₁ =>
      cases heq.symm.trans heq₁
      rw [List.map_cons, ih]
    · next heq₁ => cases heq.symm.trans heq₁
  | case3 e hover id hlru e' heq =>
    have hstored := removeEntry_leastRecentlyUsedEntry hlru
    rw [heq] at hstored
    cases hstored
  | case4 e hover =>
    unfold evictVictims
    simp [hover]

/-- Every choice is made by sampling, in a state that the loop has reached by removals. -/
theorem evictionSteps_spec {o : IterOrder} {incomingBytes : Nat} {v : EntryId}
    (h : (e', v) ∈ evictionSteps o e incomingBytes) :
    Does (¬ ·.Counts) e e' ∧ e'.leastRecentlyUsedEntry o = some v := by
  fun_induction evictionSteps o e incomingBytes with
  | case2 e _ id hlru e₁ heq ih =>
    rcases List.mem_cons.mp h with hhead | hmem
    · cases hhead
      exact ⟨.refl, hlru⟩
    · obtain ⟨hdoes, hmin⟩ := ih hmem
      have hremove : Does (¬ ·.Counts) e (e.removeEntry id).2 := .single (m := .remove id) nofun
      rw [heq] at hremove
      exact ⟨(hremove.step (m := .setStats _) nofun).trans hdoes, hmin⟩
  | case1 | case3 | case4 => cases h

theorem length_keys (e : Engine) : e.entries.keys.length = e.len := List.length_map _

/-- The victim is older than all the other entries of the sample. -/
theorem Ranked.le_countP (h : Ranked log e) (hcount : e.nextAccess.toNat < UInt64.maxNat)
    {o : IterOrder} {v : EntryId} (hv : e.leastRecentlyUsedEntry o = some v) :
    min e.len lruSampleSize - 1 ≤ e.entries.keys.countP fun id => Recency.Later log id v := by
  have hstamped := h hcount
  obtain ⟨⟨v, entry⟩, hmin, rfl⟩ := Option.map_eq_some_iff.mp hv
  have hstamp : ∀ p ∈ e.entries.entries, e.stamp p.1 = some p.2.lastAccess.toNat :=
    fun p hp => stamp_of_lookup (HashMap.lookup_eq_some_iff_mem.mpr hp)
  have hinj : ((o.order e.entries.entries).map fun p => p.2.lastAccess.toNat).Nodup := by
    refine ((o.perm _).map _).nodup_iff.mpr (List.Nodup.map_on (fun p hp q hq heq => ?_)
      e.entries.keys_nodup.of_map)
    have hid := hstamped.inj (hstamp p hp) (heq ▸ hstamp q hq)
    have hentry := (HashMap.lookup_eq_some_iff_mem.mpr hp).symm.trans
      (hid ▸ HashMap.lookup_eq_some_iff_mem.mpr hq)
    exact Sigma.ext hid (heq_of_eq (Option.some.inj hentry))
  have hle := Recency.le_countP_of_argmin_take hinj hmin
  rw [(o.perm _).length_eq, (o.perm _).countP_eq] at hle
  refine hle.trans (Nat.le_of_eq ?_)
  rw [AList.keys, List.keys, List.countP_map]
  have hvictim := hstamp _ (o.mem_order.mp (List.mem_of_mem_take (List.argmin_mem hmin)))
  refine List.countP_congr fun p hp => ?_
  simp only [Function.comp_apply, decide_eq_true_eq]
  exact hstamped.later_iff (hstamp p hp) hvictim

/-- If all entries are in the sample, then the victim is the oldest of all. -/
theorem Ranked.later_of_len_le (h : Ranked log e) (hcount : e.nextAccess.toNat < UInt64.maxNat)
    {o : IterOrder} {v : EntryId} (hv : e.leastRecentlyUsedEntry o = some v)
    (hsmall : e.len ≤ lruSampleSize) (hid : id ∈ e.entries.keys) (hne : id ≠ v) :
    Recency.Later log id v := by
  have hle := h.le_countP hcount hv
  obtain ⟨entry, hl⟩ := leastRecentlyUsedEntry_stored hv
  rw [Nat.min_eq_left hsmall, ← length_keys] at hle
  refine of_decide_eq_true (Recency.of_le_countP (AList.lookup_isSome.mp ?_) ?_ hle hid hne)
  · rw [hl]
    rfl
  · exact decide_eq_false (Nat.lt_irrefl _)

/-- The victim is not the latest of several entries. -/
theorem Ranked.exists_later (h : Ranked log e) (hcount : e.nextAccess.toNat < UInt64.maxNat)
    {o : IterOrder} {v : EntryId} (hv : e.leastRecentlyUsedEntry o = some v) (htwo : 2 ≤ e.len) :
    ∃ id ∈ e.entries.keys, Recency.Later log id v := by
  have hpos : 0 < e.entries.keys.countP fun id => Recency.Later log id v := by
    refine Nat.lt_of_lt_of_le ?_ (h.le_countP hcount hv)
    simp only [lruSampleSize]
    omega
  obtain ⟨id, hid, hlater⟩ := List.countP_pos_iff.mp hpos
  exact ⟨id, hid, of_decide_eq_true hlater⟩

end Engine

/-- The choices of the eviction loop of a put, if it is accepted. -/
def PutCommand.evictionSteps (command : PutCommand) (o : IterOrder) (e : Engine) :
    List (Engine × EntryId) :=
  Engine.evictionSteps o
    (e.tick.dropAndReclaim command.id
      (estimateEntryMemory command.id command.value command.tags))
    (estimateEntryMemory command.id command.value command.tags)

/-- The choices of the eviction loop in an event. -/
def EngineEvent.evictionSteps (ev : EngineEvent) : List (Engine × EntryId) :=
  match ev.action, ev.outcome with
  | .put o command, .put (.ok _) => command.evictionSteps o ev.before
  | .completeLease o command, .completeLease (.ok _) =>
    command.toPut.evictionSteps o (ev.before.tick.dropLease command.id)
  | _, _ => []

namespace Engine

theorem evictionSteps_evictions {ev : EngineEvent} {evicted : Nat} {victims : List EntryId}
    (h : ev.evictions = some (evicted, victims)) : ev.evictionSteps.map (·.2) = victims := by
  unfold EngineEvent.evictions at h
  split at h
  · next haction houtcome =>
    cases h
    simp only [EngineEvent.evictionSteps, haction, houtcome]
    exact evictionSteps_victims _ _ _
  · next haction houtcome =>
    cases h
    simp only [EngineEvent.evictionSteps, haction, houtcome]
    exact evictionSteps_victims _ _ _
  · cases h

/-- A victim is chosen by sampling, before the event has stamped anything. -/
theorem evictionSteps_event {ev : EngineEvent} {v : EntryId} (h : (e, v) ∈ ev.evictionSteps) :
    Does (¬ ·.Counts) ev.before e ∧ ∃ o, e.leastRecentlyUsedEntry o = some v := by
  unfold EngineEvent.evictionSteps at h
  split at h
  · next o command _ _ _ =>
    obtain ⟨hdoes, hmin⟩ := evictionSteps_spec h
    exact ⟨(does_dropAndReclaim _ _ _).trans hdoes, o, hmin⟩
  · next o command _ _ _ =>
    obtain ⟨hdoes, hmin⟩ := evictionSteps_spec h
    have hdrop : Does (¬ ·.Counts) ev.before (ev.before.tick.dropLease command.id) :=
      (Does.single (m := .tick) nofun).step (m := .dropLease command.id) nofun
    exact ⟨hdrop.trans ((does_dropAndReclaim _ _ _).trans hdoes), o, hmin⟩
  · cases h

/-- **Eviction approximates least-recently-used.** As long as the counter of accesses is not used
up, the stamps of the stored entries are below the counter, differ, and rank the entries as their
last accesses; and a victim that is chosen among `n` stored entries is older than at least
`min n 16 - 1` of them. So it is the oldest of at most 16 entries, and never the latest of several,
whatever the iteration orders. -/
theorem eviction_approximates_lru (clock : Clock) (limits : EngineLimits) (ops : List Op)
    (hcount : ((withClockAndLimits clock limits).run ops).nextAccess.toNat < UInt64.maxNat) :
    let e₀ := withClockAndLimits clock limits
    let history := Machine.history exec e₀ ops
    let e := e₀.run ops
    (∀ id entry, e.entries.lookup id = some entry → entry.lastAccess < e.nextAccess) ∧
    (∀ id entry id' entry', e.entries.lookup id = some entry →
      e.entries.lookup id' = some entry' →
        (entry.lastAccess = entry'.lastAccess → id = id') ∧
        (entry'.lastAccess < entry.lastAccess ↔ Recency.Later (accessLog history) id id')) ∧
    ∀ newer ev older, history = newer ++ ev :: older →
      (∀ evicted victims, ev.evictions = some (evicted, victims) →
        ev.evictionSteps.map (·.2) = victims) ∧
      ∀ state v, (state, v) ∈ ev.evictionSteps →
        (min state.len lruSampleSize - 1 ≤
          state.entries.keys.countP fun id => Recency.Later (accessLog older) id v) ∧
        (state.len ≤ lruSampleSize →
          ∀ id ∈ state.entries.keys, id ≠ v → Recency.Later (accessLog older) id v) ∧
        (2 ≤ state.len → ∃ id ∈ state.entries.keys, Recency.Later (accessLog older) id v) := by
  intro e₀ history e
  have hstamped := ranked_run clock limits ops hcount
  refine ⟨fun id entry hl => ?_, fun id entry id' entry' hl hl' => ⟨fun heq => ?_, ?_⟩,
    fun newer ev older hsplit => ⟨fun _ _ => evictionSteps_evictions, fun state v hv => ?_⟩⟩
  · exact UInt64.lt_iff_toNat_lt.mpr (hstamped.below (stamp_of_lookup hl))
  · exact hstamped.inj (stamp_of_lookup hl) (heq ▸ stamp_of_lookup hl')
  · rw [UInt64.lt_iff_toNat_lt]
    exact hstamped.later_iff (stamp_of_lookup hl) (stamp_of_lookup hl')
  · obtain ⟨pre, op, post, hops, rfl, rfl⟩ := Machine.history_split _ hsplit
    obtain ⟨hdoes, o, hmin⟩ := evictionSteps_event hv
    have hranked : Ranked (accessLog (Machine.history exec e₀ pre)) state :=
      (ranked_run clock limits pre).does hdoes.unstamped
    have hbelow : state.nextAccess.toNat < UInt64.maxNat := by
      have hrun : (e₀.run pre).run (op :: post) = e₀.run ops := by
        rw [hops]
        exact (Machine.run_append exec e₀ pre (op :: post)).symm
      have hle := nextAccess_le_run (e₀.run pre) (op :: post)
      rw [hrun, UInt64.le_iff_toNat_le] at hle
      rw [hdoes.nextAccess_eq]
      exact Nat.lt_of_le_of_lt hle hcount
    exact ⟨hranked.le_countP hbelow hmin,
      fun hsmall _ hid hne => hranked.later_of_len_le hbelow hmin hsmall hid hne,
      fun htwo => hranked.exists_later hbelow hmin htwo⟩

/-- With room for two entries, of which the older one is read, a third put evicts the other one. -/
theorem eviction_approximates_lru_timedPut :
    let e₀ := withClockAndLimits ⟨fun _ => 0, 0⟩ ⟨250, 100⟩
    let ops : List Op :=
      [.put .asStored (timedPut 1 none), .put .asStored (timedPut 2 none), .get "app" [1]]
    let ev : EngineEvent := Machine.event exec (e₀.run ops) (.put .asStored (timedPut 3 none))
    ∃ state, (state, ⟨"app", [2]⟩) ∈ ev.evictionSteps ∧ ⟨"app", [1]⟩ ∈ state.entries.keys ∧
      Recency.Later (accessLog (Machine.history exec e₀ ops)) ⟨"app", [1]⟩ ⟨"app", [2]⟩ := by
  intro e₀ ops ev
  have hvictims : ev.evictionSteps.map (fun step => (step.2, step.1.entries.keys)) =
      [(⟨"app", [2]⟩, [⟨"app", [1]⟩, ⟨"app", [2]⟩])] := by decide +kernel
  have hlru := (eviction_approximates_lru ⟨fun _ => 0, 0⟩ ⟨250, 100⟩
    (ops ++ [.put .asStored (timedPut 3 none)]) (by decide +kernel)).2.2 [] ev
    (Machine.history exec e₀ ops) (Machine.history_concat exec e₀ ops _)
  obtain ⟨⟨state, v⟩, hmem, hv⟩ := List.mem_map.mp (hvictims ▸ List.mem_singleton_self _)
  obtain ⟨rfl, hkeys⟩ := Prod.mk.inj hv
  have hstored : ⟨"app", [1]⟩ ∈ state.entries.keys := by
    rw [hkeys]
    exact List.mem_cons_self
  have hlen : state.len = 2 := (length_keys state).symm.trans (congrArg List.length hkeys)
  refine ⟨state, hmem, hstored, ?_⟩
  exact (hlru.2 state _ hmem).2.1 (by rw [hlen]; decide) _ hstored (by decide)

end Engine
end Cachebox

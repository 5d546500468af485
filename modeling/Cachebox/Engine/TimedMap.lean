import Cachebox.Engine.Record
import Cachebox.Theory.LossyMap

/-!
# The engine refines a timed map

The reference of a key is the record of its last accepted put or lease completion, until the key is
deleted or one of its tags is invalidated. The engine is a lossy store of that reference: it drops a
record only by eviction, which the accepted put counts, or once an operation has read a clock value
that reaches the record's removable time. So every read returns the reference value with the right
freshness, or finds nothing for one of these reasons.
-/

namespace Cachebox

/-- One step of a run of the engine. -/
abbrev EngineEvent := Machine.Event Engine Op Outcome

namespace EngineEvent

/-- The record an event writes. A lease completion reads the clock once to check the lease, and its
put reads the clock again. -/
def written (ev : EngineEvent) : Option (EntryId × Record) :=
  match ev.action, ev.outcome with
  | .put _ command, .put (.ok _) => some (command.id, command.record ev.before.clock.nowMs)
  | .completeLease _ command, .completeLease (.ok _) =>
    some (command.id, command.toPut.record ev.before.clock.tick.nowMs)
  | _, _ => none

/-- The event clears the record `r` of `id`. -/
def Clears (ev : EngineEvent) (id : EntryId) (r : Record) : Prop :=
  match ev.action with
  | .delete ns key => id = ⟨ns, key⟩
  | .invalidateTag _ ns tag => id.ns = ns ∧ tag ∈ r.tags
  | _ => False

/-- The number of evictions an accepted put reports, and the entries its eviction loop removes. -/
def evictions (ev : EngineEvent) : Option (Nat × List EntryId) :=
  match ev.action, ev.outcome with
  | .put o command, .put (.ok outcome) => some (outcome.evicted, command.victims o ev.before)
  | .completeLease o command, .completeLease (.ok outcome) =>
    some (outcome.evicted, command.toPut.victims o (ev.before.tick.dropLease command.id))
  | _, _ => none

/-- The event evicts the entry of `id` and counts it. -/
def Evicts (ev : EngineEvent) (id : EntryId) : Prop :=
  ∃ evicted victims, ev.evictions = some (evicted, victims) ∧ victims.Nodup ∧
    victims.length = evicted ∧ id ∈ victims

/-- The reasons to lose the record `r` of `id`. -/
def Loses (ev : EngineEvent) (id : EntryId) (r : Record) : Prop :=
  ev.Evicts id ∨ ev.before.Aged ev.after r

end EngineEvent

/-- The reference of every key, as a function of the events so far. -/
def timedMap : LossyMap.Spec EntryId Record EngineEvent where
  writes ev id :=
    match ev.written with
    | some (id', r) => if id = id' then some r else none
    | none => none
  clears := EngineEvent.Clears

namespace Engine

variable {e : Engine}

/-- An event that neither writes nor clears anything and only ages the records. -/
theorem effect_of_ages {ev : EngineEvent} (hwritten : ev.written = none)
    (hclears : ∀ id r, ¬ ev.Clears id r) (hages : ∀ id, Ages id ev.before ev.after) :
    LossyMap.Effect timedMap EngineEvent.Loses ev ev.before.record ev.after.record := by
  have hwrites : ∀ id r, timedMap.writes ev id ≠ some r := by
    intro id r h
    simp [timedMap, hwritten] at h
  refine ⟨fun id r h => absurd h (hwrites id r), fun id _ hb => ?_,
    fun id r _ _ hc => absurd hc (hclears id r), fun id r _ hb _ => ?_⟩
  · rcases (hages id).record with heq | ⟨hnone, -⟩
    · exact heq.trans hb
    · exact hnone
  · rcases (hages id).record with heq | ⟨hnone, r', hr', haged⟩
    · exact .inl (heq.trans hb)
    · cases hb.symm.trans hr'
      exact .inr ⟨hnone, .inr haged⟩

/-- The effect of a put on the records, in an event that may have done something else before. -/
theorem effect_of_put {ev : EngineEvent} {o : IterOrder} {command : PutCommand}
    {outcome : PutOutcome} (H : e.Inv) (hlater : ev.before.Later e)
    (hrecord : ∀ id, e.record id = ev.before.record id)
    (hput : e.put o command = (.ok outcome, ev.after))
    (hwritten : ev.written = some (command.id, command.record e.clock.nowMs))
    (hevictions : ev.evictions = some (outcome.evicted, command.victims o e))
    (hclears : ∀ id r, ¬ ev.Clears id r) :
    LossyMap.Effect timedMap EngineEvent.Loses ev ev.before.record ev.after.record := by
  obtain ⟨hself, hcount, hothers⟩ := record_put_ok H (congrArg Prod.fst hput)
  rw [hput] at hself hothers
  have hwrites : ∀ id, timedMap.writes ev id =
      if id = command.id then some (command.record e.clock.nowMs) else none := by
    intro id
    simp [timedMap, hwritten]
  have hne : ∀ id, timedMap.writes ev id = none → id ≠ command.id := by
    intro id h
    rw [hwrites] at h
    split at h
    · cases h
    · assumption
  refine ⟨fun id r h => ?_, fun id hw hb => ?_, fun id r _ _ hc => absurd hc (hclears id r),
    fun id r hw hb _ => ?_⟩
  · rw [hwrites] at h
    split at h
    · next hid => cases h; rw [hid]; exact hself
    · cases h
  · rcases hothers id (hne id hw) with heq | ⟨hnone, -⟩
    · rw [heq, hrecord, hb]
    · exact hnone
  · rcases hothers id (hne id hw) with heq | ⟨hnone, r', hr', hwhy⟩
    · rw [heq, hrecord, hb]
      exact .inl rfl
    · rw [hrecord, hb] at hr'
      cases hr'
      refine .inr ⟨hnone, hwhy.imp (fun hmem => ?_) fun haged => haged.mono hlater (.refl _)⟩
      exact ⟨_, _, hevictions, evictVictims_nodup _ _ _, hcount, hmem⟩

/-! ## Lease completion -/

theorem completeLease_ok {o : IterOrder} {command : CompleteLeaseCommand} {outcome : PutOutcome}
    (h : (e.completeLease o command).1 = .ok outcome) :
    (e.tick.dropLease command.id).put o command.toPut =
      (.ok outcome, (e.completeLease o command).2) := by
  cases hlease : e.leases.lookup command.id with
  | none => simp [completeLease, activeLease, hlease] at h
  | some lease =>
    rw [completeLease_of_some hlease] at h ⊢
    split_ifs at h ⊢
    cases hput : (e.tick.dropLease command.id).put o command.toPut with
    | mk result e' =>
      rw [hput] at h
      cases result with
      | error => cases h
      | ok => cases h; rfl

/-- A put that is refused does nothing but read the clock. -/
theorem does_put_error {o : IterOrder} {command : PutCommand} {error : PutError} (H : e.Inv)
    (h : (e.put o command).1 = .error error) : Does (· = .tick) e (e.put o command).2 := by
  rcases put_cases H o command with ⟨-, heq⟩ | ⟨-, -, heq⟩ | ⟨-, -, _, _, -, -, -, -, -, heq⟩
  · rw [heq]
    exact .refl
  · rw [heq]
    exact .single (m := .tick) rfl
  · rw [heq] at h
    cases h

/-- A lease completion that is refused reads the clock and may give up the lease of its key. -/
theorem does_completeLease_error {o : IterOrder} {command : CompleteLeaseCommand}
    {error : CompleteLeaseError} (H : e.Inv) (h : (e.completeLease o command).1 = .error error) :
    Does (fun m => m = .tick ∨ m = .dropLease command.id) e (e.completeLease o command).2 := by
  have htick : Does (fun m => m = .tick ∨ m = .dropLease command.id) e e.tick :=
    .single (m := .tick) (.inl rfl)
  cases hlease : e.leases.lookup command.id with
  | none =>
    simp only [completeLease, activeLease, hlease]
    exact .single (m := .dropLease command.id) (.inr rfl)
  | some lease =>
    rw [completeLease_of_some hlease] at h ⊢
    split_ifs at h ⊢
    · have hdrop := htick.step (m := .dropLease command.id) (.inr rfl)
      cases hput : ((e.tick.dropLease command.id).put o command.toPut).1 with
      | error =>
        have hdoes := does_put_error (H.tick.dropLease command.id) hput
        exact hdrop.trans (hdoes.mono fun _ hm => .inl hm)
      | ok =>
        rw [Prod.map_fst, hput] at h
        cases h
    · exact htick
    · exact htick.step (m := .dropLease command.id) (.inr rfl)

theorem ages_completeLease_error {o : IterOrder} {command : CompleteLeaseCommand}
    {error : CompleteLeaseError} (H : e.Inv) (h : (e.completeLease o command).1 = .error error)
    (id : EntryId) : Ages id e (e.completeLease o command).2 := by
  refine (does_completeLease_error H h).rel (Ages.refl id) Ages.trans fun e m hm => ?_
  rcases hm with rfl | rfl
  · exact ages_tick id e
  · exact .of_later (later_apply e (.dropLease command.id)) rfl

/-! ## The effect of every operation -/

theorem effect_delete (e : Engine) (ns : String) (key : Bytes) :
    LossyMap.Effect timedMap EngineEvent.Loses (Machine.event exec e (.delete ns key)) e.record
      (e.delete ns key).2.record := by
  have hlookup : ∀ id, (e.delete ns key).2.entries.lookup id =
      if id = ⟨ns, key⟩ then none else e.entries.lookup id := by
    intro id
    rw [delete, removeEntry_entries, HashMap.lookup_erase']
    rfl
  refine ⟨nofun, fun id _ hb => ?_, fun id r _ _ hc => ?_, fun id r _ hb hc => .inl ?_⟩
  · rw [record_eq_none_iff] at hb ⊢
    rw [hlookup, hb, ite_self]
  · rw [record_eq_none_iff]
    exact (hlookup id).trans (if_pos hc)
  · rw [← hb]
    exact record_congr ((hlookup id).trans (if_neg hc))

theorem effect_invalidateTag (H : e.Inv) (o : IterOrder) (ns tag : String) :
    LossyMap.Effect timedMap EngineEvent.Loses (Machine.event exec e (.invalidateTag o ns tag))
      e.record (e.invalidateTag o ns tag).2.record := by
  obtain ⟨ids, -, hids, heq⟩ := invalidateTag_spec H o ns tag
  have hlookup : ∀ id, (e.invalidateTag o ns tag).2.entries.lookup id =
      if id ∈ ids then none else e.entries.lookup id := by
    intro id
    rw [heq, lookup_removeEach statsOnly_self]
  have hcarries : ∀ id r, e.record id = some r → (id ∈ ids ↔ id.ns = ns ∧ tag ∈ r.tags) := by
    intro id r hr
    obtain ⟨entry, hl, rfl⟩ := Option.map_eq_some_iff.mp hr
    rw [hids]
    refine ⟨fun ⟨entry', hl', hns, htag⟩ => ?_, fun ⟨hns, htag⟩ => ⟨entry, hl, hns, htag⟩⟩
    cases hl.symm.trans hl'
    exact ⟨hns, htag⟩
  refine ⟨nofun, fun id _ hb => ?_, fun id r _ hb hc => ?_, fun id r _ hb hc => .inl ?_⟩
  · rw [record_eq_none_iff] at hb ⊢
    rw [hlookup, hb, ite_self]
  · rw [record_eq_none_iff, hlookup, if_pos ((hcarries id r hb).mpr hc)]
  · rw [← hb]
    exact record_congr ((hlookup id).trans (if_neg fun h => hc ((hcarries id r hb).mp h)))

/-- Every operation acts on the records as a lossy store. -/
theorem effect_exec (H : e.Inv) (op : Op) :
    LossyMap.Effect timedMap EngineEvent.Loses (Machine.event exec e op) e.record
      (e.exec op).2.record := by
  cases op with
  | put o command =>
    cases hput : (e.put o command).1 with
    | error error =>
      refine effect_of_ages ?_ (fun _ _ => nofun) fun id =>
        .of_later (later_exec e (.put o command)) (record_put_error H hput id)
      simp [EngineEvent.written, Machine.event, exec, hput]
    | ok outcome =>
      refine effect_of_put H (.refl e) (fun _ => rfl)
        (Prod.ext hput rfl) ?_ ?_ (fun _ _ => nofun)
      · simp [EngineEvent.written, Machine.event, exec, hput]
      · simp [EngineEvent.evictions, Machine.event, exec, hput]
  | get ns key => exact effect_of_ages rfl (fun _ _ => nofun) fun id => ages_get id e ns key
  | getRef ns key =>
    exact effect_of_ages rfl (fun _ _ => nofun) fun k => ages_getRefInner k e ns key true id
  | getRefWithoutAccessUpdate ns key =>
    exact effect_of_ages rfl (fun _ _ => nofun) fun k => ages_getRefInner k e ns key false id
  | batchGet ns keys =>
    exact effect_of_ages rfl (fun _ _ => nofun) fun id => ages_batchGet id e ns keys
  | delete ns key => exact effect_delete e ns key
  | invalidateTag o ns tag => exact effect_invalidateTag H o ns tag
  | startLease ns key leaseTtlMs =>
    exact effect_of_ages rfl (fun _ _ => nofun) fun id => ages_startLease id e ns key leaseTtlMs
  | completeLease o command =>
    cases hout : (e.completeLease o command).1 with
    | error error =>
      refine effect_of_ages ?_ (fun _ _ => nofun) (ages_completeLease_error H hout)
      simp [EngineEvent.written, Machine.event, exec, hout]
    | ok outcome =>
      have hlater := (later_apply e .tick).trans (later_apply e.tick (.dropLease command.id))
      refine effect_of_put (H.tick.dropLease command.id) hlater (fun _ => rfl)
        (completeLease_ok hout) ?_ ?_ (fun _ _ => nofun)
      · simp only [EngineEvent.written, Machine.event, exec, Prod.map_fst, hout]
        rfl
      · simp [EngineEvent.evictions, Machine.event, exec, hout]
  | reclaimExpiredBudget maxEntries =>
    exact effect_of_ages rfl (fun _ _ => nofun) fun id => ages_removeExpired H id maxEntries

/-- A record has been there before, or has just been written. -/
theorem record_exec (H : e.Inv) (op : Op) {id : EntryId} {r : Record}
    (h : (e.exec op).2.record id = some r) :
    e.record id = some r ∨ EngineEvent.written (Machine.event exec e op) = some (id, r) := by
  rcases (effect_exec H op).origin h with hw | hb
  · simp only [timedMap] at hw
    split at hw
    · next id' r' hwritten =>
      split at hw
      · next hid =>
        cases hw
        rw [hid]
        exact .inr hwritten
      · cases hw
    · cases hw
  · exact .inl hb

/-- After every run the engine tracks the reference. -/
theorem tracks_run (clock : Clock) (limits : EngineLimits) (ops : List Op) :
    LossyMap.Tracks timedMap EngineEvent.Loses
      (Machine.history exec (withClockAndLimits clock limits) ops)
      ((withClockAndLimits clock limits).run ops).record := by
  have hpair := Machine.history_induction (R := fun h (e : Engine) =>
      e.Inv ∧ LossyMap.Tracks timedMap EngineEvent.Loses h e.record)
    ⟨inv_withClockAndLimits clock limits, LossyMap.tracks_nil⟩
    (fun _ e op H => ⟨H.1.exec op, H.2.cons (effect_exec H.1 op)⟩) ops
  exact hpair.2

end Engine

/-! ## Reads -/

/-- What a read of a key reports: a value with its freshness, or nothing. -/
inductive Seen where
  | value (stale : Bool) (value : Bytes)
  | absent
  deriving DecidableEq, Repr

def GetOutcome.seen : GetOutcome → Seen
  | .hit value => .value false value
  | .stale value => .value true value
  | .miss => .absent

def GetOutcomeRef.seen : GetOutcomeRef → Seen
  | .hit value => .value false value
  | .stale value => .value true value
  | .miss => .absent

/-- A lease granted on a stale entry hands out the stale value. -/
def StartLeaseOutcome.seen : StartLeaseOutcome → Seen
  | .hit value => .value false value
  | .stale value => .value true value
  | .leaseGranted _ (some value) => .value true value
  | .leaseGranted _ none => .absent
  | .leaseDenied => .absent

/-- A read of `id` at the reading `nowMs` of the clock. -/
structure Read where
  id : EntryId
  nowMs : UInt64
  seen : Seen
  deriving DecidableEq, Repr

/-- The reads of a `batch_get`, each of which takes the next reading. -/
def batchReads (ns : String) : Clock → List Bytes → List GetOutcome → List Read
  | clock, key :: keys, outcome :: outcomes =>
    ⟨⟨ns, key⟩, clock.nowMs, outcome.seen⟩ :: batchReads ns clock.tick keys outcomes
  | _, _, _ => []

/-- The reads of an event with what they report. `start_lease` looks at the entry after it has
looked at the lease of the key. -/
def EngineEvent.reads (ev : EngineEvent) : List Read :=
  match ev.action, ev.outcome with
  | .get ns key, .get outcome => [⟨⟨ns, key⟩, ev.before.clock.nowMs, outcome.seen⟩]
  | .getRef ns key, .getRef outcome => [⟨⟨ns, key⟩, ev.before.clock.nowMs, outcome.seen⟩]
  | .getRefWithoutAccessUpdate ns key, .getRef outcome =>
    [⟨⟨ns, key⟩, ev.before.clock.nowMs, outcome.seen⟩]
  | .batchGet ns keys, .batchGet outcomes => batchReads ns ev.before.clock keys outcomes
  | .startLease ns key _, .startLease outcome =>
    [⟨⟨ns, key⟩, (ev.before.activeLease ⟨ns, key⟩).2.clock.nowMs, outcome.seen⟩]
  | _, _ => []

/-- A reported value is the value of the record, fresh or stale as its windows say. -/
def Record.Shows (r : Record) (nowMs : UInt64) (stale : Bool) (value : Bytes) : Prop :=
  value = r.value ∧ (stale = false ↔ r.FreshAt nowMs) ∧ (stale = true ↔ r.StaleAt nowMs)

/-- The read agrees with the stored record, or the record ages during the event. -/
def Read.Sound (read : Read) (e e' : Engine) : Prop :=
  match read.seen with
  | .value stale value => ∃ r, e.record read.id = some r ∧ r.Shows read.nowMs stale value
  | .absent => ∀ r, e.record read.id = some r → e.Aged e' r

theorem Record.shows_fresh {entry : Entry} {nowMs : UInt64}
    (h : entryStateAt entry nowMs = .fresh) : entry.record.Shows nowMs false entry.value := by
  have hfresh := entryStateAt_fresh h
  exact ⟨rfl, ⟨fun _ => hfresh, fun _ => rfl⟩, nofun, fun hs => absurd hfresh hs.not_freshAt⟩

theorem Record.shows_stale {entry : Entry} {nowMs : UInt64}
    (h : entryStateAt entry nowMs = .stale) : entry.record.Shows nowMs true entry.value := by
  have hstale := entryStateAt_stale h
  exact ⟨rfl, ⟨nofun, fun hf => absurd hf hstale.not_freshAt⟩, fun _ => hstale, fun _ => rfl⟩

namespace Engine

variable {e e' e₁ e₂ : Engine}

/-- A read stays sound when its record may have aged before and the clock goes on after it. -/
theorem Sound.mono {read : Read} (h : read.Sound e₁ e₂) (h₁ : Ages read.id e e₁)
    (h₁₂ : e₁.Later e₂) (h₂ : e₂.Later e') : read.Sound e e' := by
  unfold Read.Sound at h ⊢
  split at h
  · obtain ⟨r, hr, hshows⟩ := h
    rcases h₁.record with heq | ⟨hnone, -⟩
    · exact ⟨r, heq ▸ hr, hshows⟩
    · rw [hnone] at hr
      cases hr
  · intro r hr
    rcases h₁.record with heq | ⟨-, r', hr', haged⟩
    · exact (h r (heq.trans hr)).mono h₁.later h₂
    · cases hr.symm.trans hr'
      exact haged.mono (.refl _) (h₁₂.trans h₂)

theorem sound_absent {id : EntryId} (nowMs : UInt64) (e' : Engine)
    (h : e.entries.lookup id = none) : Read.Sound ⟨id, nowMs, .absent⟩ e e' := by
  intro r hr
  rw [record, h] at hr
  cases hr

/-- A read that finds the entry expired at its own reading. -/
theorem sound_expired {id : EntryId} {entry : Entry} (hl : e.entries.lookup id = some entry)
    (hstate : entryStateAt entry e.clock.nowMs = .expired)
    (hreads : e.clock.reads < e'.clock.reads) :
    Read.Sound ⟨id, e.clock.nowMs, .absent⟩ e e' := by
  intro r hr
  cases (record_of_lookup hl).symm.trans hr
  obtain ⟨t, ht, hle⟩ := entryStateAt_expired hstate
  exact ⟨t, e.clock.reads, ht, Nat.le_refl _, hreads, hle⟩

theorem sound_getRefInner {R : Type} (e : Engine) (ns : String) (key : Bytes) (updateAccess : Bool)
    (map : GetOutcomeRef → R) {seen : R → Seen}
    (hseen : ∀ outcome, seen (map outcome) = outcome.seen) :
    Read.Sound ⟨⟨ns, key⟩, e.clock.nowMs, seen (e.getRefInner ns key updateAccess map).1⟩ e
      (e.getRefInner ns key updateAccess map).2 := by
  cases hl : e.entries.lookup ⟨ns, key⟩ with
  | none =>
    simp only [getRefInner, tick_entries, hl, hseen]
    exact sound_absent _ _ hl
  | some entry =>
    simp only [getRefInner, tick_entries, hl]
    cases hstate : entryStateAt entry e.clock.nowMs with
    | missing => exact absurd hstate (entryStateAt_ne_missing _ _)
    | fresh =>
      simp only [hseen]
      exact ⟨entry.record, record_of_lookup hl, Record.shows_fresh hstate⟩
    | stale =>
      simp only [hseen]
      exact ⟨entry.record, record_of_lookup hl, Record.shows_stale hstate⟩
    | expired =>
      simp only [hseen]
      refine sound_expired hl hstate ?_
      rw [removeEntry_clock]
      exact Nat.lt_succ_self _

theorem sound_get (e : Engine) (ns : String) (key : Bytes) :
    Read.Sound ⟨⟨ns, key⟩, e.clock.nowMs, (e.get ns key).1.seen⟩ e (e.get ns key).2 :=
  sound_getRefInner e ns key true _ fun outcome => by cases outcome <;> rfl

/-- Every read of a key takes exactly one reading of the clock. -/
theorem get_clock (e : Engine) (ns : String) (key : Bytes) :
    (e.get ns key).2.clock = e.clock.tick := by
  cases hl : e.entries.lookup ⟨ns, key⟩ with
  | none => simp [get, getRef, getRefInner, hl, tick]
  | some entry =>
    simp only [get, getRef, getRefInner, tick_entries, hl]
    cases entryStateAt entry e.clock.nowMs with
    | missing | fresh | stale => rfl
    | expired => exact removeEntry_clock _ _

theorem sound_batchGet (e : Engine) (ns : String) (keys : List Bytes) :
    ∀ read ∈ batchReads ns e.clock keys (e.batchGet ns keys).1,
      read.Sound e (e.batchGet ns keys).2 := by
  induction keys generalizing e with
  | nil => exact nofun
  | cons key keys ih =>
    have hrest := (ages_batchGet ⟨ns, key⟩ (e.get ns key).2 ns keys).later
    intro read hread
    rcases List.mem_cons.mp hread with rfl | hmem
    · exact Sound.mono (sound_get e ns key) (.refl _ e) (ages_get ⟨ns, key⟩ e ns key).later hrest
    · rw [← get_clock] at hmem
      exact Sound.mono (ih _ read hmem) (ages_get _ e ns key) hrest (.refl _)

theorem seen_startLeaseForMissing (e : Engine) (id : EntryId) (leaseTtlMs : UInt64) :
    (e.startLeaseForMissing id leaseTtlMs).1.seen = .absent := by
  rw [startLeaseForMissing_eq]
  dsimp only
  split <;> rfl

theorem sound_startLease (e : Engine) (ns : String) (key : Bytes) (leaseTtlMs : UInt64) :
    Read.Sound ⟨⟨ns, key⟩, (e.activeLease ⟨ns, key⟩).2.clock.nowMs,
      (e.startLease ns key leaseTtlMs).1.seen⟩ e (e.startLease ns key leaseTtlMs).2 := by
  have hactive := ages_activeLease ⟨ns, key⟩ e ⟨ns, key⟩
  have hlookup := congrArg (AList.lookup ⟨ns, key⟩) (activeLease_entries e ⟨ns, key⟩)
  cases hl : e.entries.lookup ⟨ns, key⟩ with
  | none =>
    rw [startLease_of_missing hl, seen_startLeaseForMissing]
    exact sound_absent _ _ hl
  | some entry =>
    rw [hl] at hlookup
    cases hstate : entryStateAt entry (e.activeLease ⟨ns, key⟩).2.clock.nowMs with
    | missing => exact absurd hstate (entryStateAt_ne_missing _ _)
    | fresh =>
      rw [startLease_of_fresh hl hstate]
      exact ⟨entry.record, record_of_lookup hl, Record.shows_fresh hstate⟩
    | stale =>
      have hshows := Record.shows_stale hstate
      rw [startLease_of_stale hl hstate]
      dsimp only
      split
      · exact ⟨entry.record, record_of_lookup hl, hshows⟩
      · exact ⟨entry.record, record_of_lookup hl, hshows⟩
    | expired =>
      have hticked : (e.activeLease ⟨ns, key⟩).2.Later (e.activeLease ⟨ns, key⟩).2.tick :=
        later_apply _ .tick
      rw [startLease_of_expired hl hstate]
      dsimp only
      split
      · exact Sound.mono (sound_expired hlookup hstate (Nat.lt_succ_self _)) hactive hticked
          (.refl _)
      · rw [seen_startLeaseForMissing]
        exact Sound.mono (sound_expired hlookup hstate (Nat.lt_succ_self _)) hactive hticked
          ((later_apply _ (.remove _)).trans (later_startLeaseForMissing _ _ _))

/-- Every read of every operation is sound. -/
theorem sound_exec (e : Engine) (op : Op) :
    ∀ read ∈ EngineEvent.reads (Machine.event exec e op), read.Sound e (e.exec op).2 := by
  cases op with
  | get ns key =>
    intro read hread
    cases List.mem_singleton.mp hread
    exact sound_get e ns key
  | getRef ns key =>
    intro read hread
    cases List.mem_singleton.mp hread
    exact sound_getRefInner e ns key true id fun _ => rfl
  | getRefWithoutAccessUpdate ns key =>
    intro read hread
    cases List.mem_singleton.mp hread
    exact sound_getRefInner e ns key false id fun _ => rfl
  | batchGet ns keys => exact sound_batchGet e ns keys
  | startLease ns key leaseTtlMs =>
    intro read hread
    cases List.mem_singleton.mp hread
    exact sound_startLease e ns key leaseTtlMs
  | put | delete | invalidateTag | completeLease | reclaimExpiredBudget => exact nofun

/-- **The engine refines a timed map.** In every run, a read that reports a value reports the value
of the reference record with the freshness its windows give it; and a read that reports nothing
although a reference record exists does so because the record has been evicted by an accepted put
since it was written, which counted it, or because an operation since then, the read included, read
a clock value that reaches the record's removable time. -/
theorem reads_refine_timedMap (clock : Clock) (limits : EngineLimits) (ops : List Op) (op : Op)
    (read : Read) :
    let e₀ := withClockAndLimits clock limits
    let history := Machine.history exec e₀ ops
    let ev : EngineEvent := Machine.event exec (e₀.run ops) op
    read ∈ ev.reads →
      (∀ stale value, read.seen = .value stale value →
        ∃ r since, timedMap.reference history read.id = some (r, since) ∧
          r.Shows read.nowMs stale value) ∧
      (read.seen = .absent →
        ∀ r since, timedMap.reference history read.id = some (r, since) →
          ∃ ev' ∈ ev :: since, ev'.Loses read.id r) := by
  intro e₀ history ev hread
  have T := tracks_run clock limits ops
  have hsound := sound_exec (e₀.run ops) op read hread
  refine ⟨fun stale value hseen => ?_, fun hseen r since href => ?_⟩ <;>
    rw [Read.Sound, hseen] at hsound
  · obtain ⟨r, hr, hshows⟩ := hsound
    obtain ⟨since, href⟩ := T.stored read.id r hr
    exact ⟨r, since, href, hshows⟩
  · cases hr : (e₀.run ops).record read.id with
    | none =>
      obtain ⟨ev', hmem, hlost⟩ := T.missing read.id r since hr href
      exact ⟨ev', List.mem_cons_of_mem _ hmem, hlost⟩
    | some r' =>
      obtain ⟨since', href'⟩ := T.stored read.id r' hr
      cases href.symm.trans href'
      exact ⟨ev, List.mem_cons_self, .inr (hsound r hr)⟩

/-- A value put at 5 with a TTL of 10 is read back as a hit at 5. -/
theorem reads_refine_timedMap_put_get :
    let history := Machine.history exec (withClockAndLimits ⟨fun _ => 5, 0⟩ default)
      [.put .asStored stalePut]
    ∃ r since, timedMap.reference history ⟨"app", [107]⟩ = some (r, since) ∧
      r.Shows 5 false [118] :=
  (reads_refine_timedMap ⟨fun _ => 5, 0⟩ default [.put .asStored stalePut] (.get "app" [107])
    ⟨⟨"app", [107]⟩, 5, .value false [118]⟩ (by decide +kernel)).1 false [118] rfl

end Engine
end Cachebox

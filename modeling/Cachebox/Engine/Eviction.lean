import Cachebox.Engine.Alike

/-!
# How a put makes room

A put that fits beside the other entries removes nothing but the old entry of its key. Otherwise it
reclaims every entry that is removable, and only then evicts, one entry after the other, as long as
the new one does not fit. `MakesRoom` says which entries go; everything else stays as it is.
-/

namespace Cachebox
namespace Engine

variable {e e' : Engine} {id id' : EntryId} {o : IterOrder} {gone : List EntryId}

/-! ## The memory of the entries that stay -/

/-- The memory charged for the entries whose identifiers are not among `gone`. -/
def memoryWithout (e : Engine) (gone : List EntryId) : Nat :=
  HashMap.sumBy (fun id entry => if id ∈ gone then 0 else entry.memoryBytes) e.entries

theorem Accounted.memory_eq (H : e'.Accounted)
    (h : ∀ id, e'.entries.lookup id = if id ∈ gone then none else e.entries.lookup id) :
    e'.memoryUsedBytes = e.memoryWithout gone := by
  rw [H.memory, memoryWithout]
  exact HashMap.sumBy_of_lookup_eq _ h

/-- What is left without some entries, without some more. -/
theorem memoryWithout_of_lookup
    (h : ∀ id, e'.entries.lookup id = if id ∈ gone then none else e.entries.lookup id)
    (more : List EntryId) : e'.memoryWithout more = e.memoryWithout (gone ++ more) := by
  rw [memoryWithout, HashMap.sumBy_of_lookup_eq _ h, memoryWithout]
  congr 1
  funext id entry
  by_cases hid : id ∈ gone <;> simp [hid]

theorem removeEntry_memory (H : e.Inv) (id : EntryId) :
    (e.removeEntry id).2.memoryUsedBytes = e.memoryWithout [id] := by
  refine (H.removeEntry id).accounted.memory_eq fun id' => ?_
  simp only [removeEntry_entries, HashMap.lookup_erase', List.mem_singleton]

/-- Every entry is charged its overhead, so the entries that fit a `usize` of memory can be
counted with a `usize`. -/
theorem len_lt_usizeMax (H : e.Inv) (hlimit : e.limits.maxMemoryBytes ≤ usizeMax) :
    e.len < usizeMax := by
  have hcharged : ∀ id entry, e.entries.lookup id = some entry →
      entryOverheadBytes ≤ entry.memoryBytes := by
    intro id entry hl
    rw [(H.accounted.entries id entry hl).charged, estimateEntryMemory]
    omega
  have hle := HashMap.length_mul_le_sumBy hcharged
  rw [← H.accounted.memory] at hle
  have hcapped := H.capped
  simp only [len, entryOverheadBytes, usizeMax] at hle hlimit ⊢
  omega

/-! ## Eviction -/

/-- The bookkeeping of the eviction loop. -/
theorem evictUntilFits_stats (o : IterOrder) (e : Engine) (incomingBytes : Nat) :
    (evictUntilFits o e incomingBytes).2.stats =
      { e.stats with evictions := e.stats.evictions + (evictUntilFits o e incomingBytes).1 } := by
  fun_induction evictUntilFits o e incomingBytes with
  | case1 => rfl
  | case2 e _ id _ e' heq evicted e'' hrec ih =>
    have hstats := removeEntry_stats e id
    rw [heq] at hstats
    rw [hrec] at ih
    rw [ih]
    simp only [countEviction, show e'.stats = e.stats from hstats, Nat.add_assoc,
      Nat.add_comm 1 evicted]
  | case3 e _ id hlru e' heq =>
    have hstored := removeEntry_leastRecentlyUsedEntry hlru
    rw [heq] at hstored
    cases hstored
  | case4 => rfl

/-- When the loop picks a victim, the incoming entry does not fit beside what is left. -/
theorem evictVictims_needed {incomingBytes : Nat} {v : EntryId} {before after : List EntryId}
    (H : e.Inv) (h : evictVictims o e incomingBytes = before ++ v :: after) :
    e.limits.maxMemoryBytes < e.memoryWithout before + incomingBytes := by
  -- the state of the loop after the removals of `before`
  suffices hstate : ∃ e₁ : Engine, e₁.Inv ∧
      (∀ id, e₁.entries.lookup id = if id ∈ before then none else e.entries.lookup id) ∧
        e.limits.maxMemoryBytes < e₁.memoryUsedBytes + incomingBytes by
    obtain ⟨e₁, H₁, hlookup, hover⟩ := hstate
    rwa [H₁.accounted.memory_eq hlookup] at hover
  fun_induction evictVictims o e incomingBytes generalizing before with
  | case2 e hover id _ e' heq ih =>
    cases before with
    | nil => exact ⟨e, H, fun id => by simp, hover⟩
    | cons id' before =>
      obtain ⟨rfl, htail⟩ := List.cons.inj h
      have H' := (H.removeEntry id).countEviction
      have hentries := removeEntry_entries e id
      have hlimits := removeEntry_limits e id
      rw [heq] at H' hentries hlimits
      obtain ⟨e₁, H₁, hlookup, hover₁⟩ := ih H' htail
      refine ⟨e₁, H₁, fun id' => ?_, ?_⟩
      · rw [hlookup, show e'.countEviction.entries = _ from hentries, HashMap.lookup_erase']
        by_cases hid : id' = id <;> simp [hid]
      · rwa [show e'.countEviction.limits = _ from hlimits] at hover₁
  | case1 | case3 | case4 => simp at h

/-! ## Reclamation inside a put -/

/-- Before the eviction the old entry of the key is gone and, if the new one does not fit beside the
others, every entry that is removable at the reading of the reclamation. -/
theorem dropAndReclaim_ids (H : e.Inv) (hlimit : e.limits.maxMemoryBytes ≤ usizeMax) (id : EntryId)
    (entryMemoryBytes : Nat) :
    ∃ expired : List EntryId, (id :: expired).Nodup ∧
      (∀ id', id' ∈ expired ↔
        e.limits.maxMemoryBytes < e.memoryWithout [id] + entryMemoryBytes ∧ id' ≠ id ∧
          ∃ entry, e.entries.lookup id' = some entry ∧ Removable e.clock.nowMs id' entry) ∧
      (∀ id', (e.dropAndReclaim id entryMemoryBytes).entries.lookup id' =
        if id' ∈ id :: expired then none else e.entries.lookup id') ∧
      (e.dropAndReclaim id entryMemoryBytes).stats =
        { e.stats with expirations := e.stats.expirations + expired.length } := by
  have hdropped : ∀ id', (e.removeEntry id).2.entries.lookup id' =
      if id' = id then none else e.entries.lookup id' := by
    intro id'
    rw [removeEntry_entries, HashMap.lookup_erase']
  have hlimits := removeEntry_limits e id
  have H' := H.removeEntry id
  simp only [dropAndReclaim, hlimits, removeEntry_memory H id]
  split
  · next hover =>
    obtain ⟨expired, hnodup, hmem, hcount, index, heq⟩ :=
      removeExpired_ids H' (len_lt_usizeMax H' (by rwa [hlimits]))
    have hexpired : ∀ id', id' ∈ expired ↔ id' ≠ id ∧
        ∃ entry, e.entries.lookup id' = some entry ∧ Removable e.clock.nowMs id' entry := by
      intro id'
      rw [hmem, removeEntry_clock, hdropped]
      by_cases hid : id' = id <;> simp [hid]
    refine ⟨expired, List.nodup_cons.mpr ⟨fun hid => ((hexpired id).mp hid).1 rfl, hnodup⟩,
      fun id' => (hexpired id').trans (by simp [hover]), fun id' => ?_, ?_⟩
    · rw [reclaimExpired, reclaimExpiredBudget, heq, lookup_removeEach statsOnly_countExpiration]
      change (if id' ∈ expired then none else (e.removeEntry id).2.entries.lookup id') = _
      rw [hdropped]
      by_cases hid : id' = id <;> simp [hid]
    · rw [reclaimExpired, reclaimExpiredBudget, removeExpired_stats, hcount, removeEntry_stats]
  · next hfits =>
    refine ⟨[], by simp, fun id' => by simp [hfits], fun id' => ?_, removeEntry_stats e id⟩
    simpa using hdropped id'

/-! ## The put -/

/-- Room for an entry of `size` bytes under `id` is made at the time `nowMs` by removing the old
entry of `id`, then the entries of `expired`, then those of `victims` in their order. -/
structure MakesRoom (e : Engine) (id : EntryId) (size : Nat) (nowMs : UInt64)
    (expired victims : List EntryId) : Prop where
  /-- Nothing else is removed for an entry that fits beside the others. -/
  fits : e.memoryWithout [id] + size ≤ e.limits.maxMemoryBytes → expired = [] ∧ victims = []
  /-- For any other entry, everything removable goes first. -/
  reclaimed : e.limits.maxMemoryBytes < e.memoryWithout [id] + size → ∀ id', id' ∈ expired ↔
    id' ≠ id ∧ ∃ entry, e.entries.lookup id' = some entry ∧ Removable nowMs id' entry
  nodup : (id :: expired ++ victims).Nodup
  stored : ∀ v ∈ victims, (e.entries.lookup v).isSome
  /-- A victim is removed only while the entry does not fit. -/
  needed : ∀ before v after, victims = before ++ v :: after →
    e.limits.maxMemoryBytes < e.memoryWithout (id :: expired ++ before) + size
  enough : e.memoryWithout (id :: expired ++ victims) + size ≤ e.limits.maxMemoryBytes

theorem makeRoom_makesRoom (H : e.Inv) (hlimit : e.limits.maxMemoryBytes ≤ usizeMax)
    (o : IterOrder) (id : EntryId) {size : Nat} (hsize : size ≤ e.limits.maxMemoryBytes) :
    ∃ expired victims, MakesRoom e id size e.clock.nowMs expired victims ∧
      (makeRoom o e id size).1 = victims.length ∧
      (makeRoom o e id size).2.stats =
        ⟨e.stats.expirations + expired.length, e.stats.evictions + victims.length⟩ ∧
      ∀ id', (makeRoom o e id size).2.entries.lookup id' =
        if id' ∈ id :: expired ++ victims then none else e.entries.lookup id' := by
  obtain ⟨expired, hnodup, hexpired, hlookup, hstats⟩ := dropAndReclaim_ids H hlimit id size
  obtain ⟨hcount, hevicted⟩ := evictUntilFits_victims o (e.dropAndReclaim id size) size
  have hroom := makeRoom_fits H o id hsize
  have Hroom := H.makeRoom o id size
  have Hdrop := H.dropAndReclaim id size
  rw [makeRoom] at hroom Hroom ⊢
  have hkept : ∀ id', (evictUntilFits o (e.dropAndReclaim id size) size).2.entries.lookup id' =
      if id' ∈ id :: expired ++ evictVictims o (e.dropAndReclaim id size) size then none
      else e.entries.lookup id' := by
    intro id'
    rw [hevicted, hlookup]
    by_cases hv : id' ∈ evictVictims o (e.dropAndReclaim id size) size
    · simp [hv]
    · simp [hv]
  have hstored : ∀ v ∈ evictVictims o (e.dropAndReclaim id size) size,
      v ∉ id :: expired ∧ (e.entries.lookup v).isSome := by
    intro v hv
    have hsome := evictVictims_stored hv
    rw [hlookup] at hsome
    split at hsome
    · cases hsome
    · next hnot => exact ⟨hnot, hsome⟩
  have hneeded : ∀ before v after,
      evictVictims o (e.dropAndReclaim id size) size = before ++ v :: after →
        e.limits.maxMemoryBytes < e.memoryWithout (id :: expired ++ before) + size := by
    intro before v after hsplit
    have h := evictVictims_needed Hdrop hsplit
    rwa [dropAndReclaim_limits, memoryWithout_of_lookup hlookup] at h
  refine ⟨expired, evictVictims o (e.dropAndReclaim id size) size,
    ⟨fun hfits => ?_, fun hover id' => ?_, ?_, fun v hv => (hstored v hv).2, hneeded, ?_⟩, hcount,
    ?_, hkept⟩
  · have hnone : expired = [] := by
      refine List.eq_nil_iff_forall_not_mem.mpr fun id' hid => ?_
      exact absurd ((hexpired id').mp hid).1 (Nat.not_lt.mpr hfits)
    refine ⟨hnone, ?_⟩
    cases hv : evictVictims o (e.dropAndReclaim id size) size with
    | nil => rfl
    | cons v victims =>
      have h := hneeded [] v victims hv
      rw [hnone, List.append_nil] at h
      exact absurd hfits (Nat.not_le.mpr h)
  · rw [hexpired]
    simp [hover]
  · refine List.nodup_append.mpr ⟨hnodup, evictVictims_nodup o _ _, fun a ha v hv => ?_⟩
    rintro rfl
    exact (hstored a hv).1 ha
  · rw [← Hroom.accounted.memory_eq hkept]
    exact hroom
  · rw [evictUntilFits_stats, hstats, hcount]

/-- **Eviction is minimal and comes last.** An accepted put removes nothing but the old entry of its
key if the new one fits beside the others. Otherwise it first removes every entry that is removable
at the reading of the reclamation, which are counted as expirations, and then victims as long as the
new entry does not fit, which are counted as evictions and in the outcome. All other entries stay as
they were, whatever the iteration order. -/
theorem put_evicts_minimally (clock : Clock) (limits : EngineLimits)
    (hlimit : limits.maxMemoryBytes ≤ usizeMax) (ops : List Op) (o : IterOrder)
    (command : PutCommand) {outcome : PutOutcome} :
    let e := (withClockAndLimits clock limits).run ops
    let e' := (e.put o command).2
    (e.put o command).1 = .ok outcome →
      ∃ expired victims,
        MakesRoom e command.id (estimateEntryMemory command.id command.value command.tags)
          e.tick.clock.nowMs expired victims ∧
        outcome.evicted = victims.length ∧
        e'.stats = ⟨e.stats.expirations + expired.length, e.stats.evictions + victims.length⟩ ∧
        ∀ id, id ≠ command.id → e'.entries.lookup id =
          if id ∈ expired ++ victims then none else e.entries.lookup id := by
  intro e e' hok
  have H : e.Inv := inv_run clock limits ops
  have hlimits : e.tick.limits = limits := limits_run clock limits ops
  rcases put_cases H o command with ⟨-, heq⟩ | ⟨-, -, heq⟩ | ⟨-, hsize, hroom⟩
  · rw [heq] at hok
    cases hok
  · rw [heq] at hok
    cases hok
  · obtain ⟨evicted, room, hmake, -, -, -, -, heq⟩ := hroom
    obtain ⟨expired, victims, hrooms, hcount, hstats, hlookup⟩ :=
      makeRoom_makesRoom H.tick (by rw [hlimits]; exact hlimit) o command.id hsize
    rw [hmake] at hcount hstats hlookup
    have he' : e' = room.storeEntry command.id (command.entry e.clock.nowMs room.nextAccess) :=
      congrArg Prod.snd heq
    rw [heq] at hok
    cases hok
    refine ⟨expired, victims, ⟨hrooms.fits, hrooms.reclaimed, hrooms.nodup, hrooms.stored,
      hrooms.needed, hrooms.enough⟩, hcount, ?_, fun id hne => ?_⟩
    · rw [he']
      exact hstats
    · rw [he', storeEntry, HashMap.lookup_insert', if_neg hne, hlookup]
      simp [hne, Engine.tick]

/-- A put of 100 bytes under the key `[k]`, with a lifetime. -/
def timedPut (k : UInt8) (ttl : Option Ttl) : PutCommand :=
  { ns := "app", key := [k], value := [], ttl := ttl, staleTtl := none, tags := [], cost := none }

/-- With room for two entries, of which one is removable, a third put reclaims that one and evicts
nothing. -/
theorem put_evicts_minimally_timedPut :
    let e := (withClockAndLimits ⟨fun i => i.toUInt64, 0⟩ ⟨250, 100⟩).run
      [.put .asStored (timedPut 1 none), .put .asStored (timedPut 2 (some ⟨1⟩))]
    ∃ expired, MakesRoom e ⟨"app", [3]⟩ 100 3 expired [] ∧ expired.length = 1 := by
  intro e
  obtain ⟨expired, victims, hrooms, hcount, hstats, -⟩ := put_evicts_minimally
    ⟨fun i => i.toUInt64, 0⟩ ⟨250, 100⟩ (by decide)
    [.put .asStored (timedPut 1 none), .put .asStored (timedPut 2 (some ⟨1⟩))] .asStored
    (timedPut 3 none) (show (e.put .asStored (timedPut 3 none)).1 = .ok ⟨0⟩ by decide +kernel)
  obtain rfl := List.length_eq_zero_iff.mp hcount.symm
  have hsize : estimateEntryMemory (timedPut 3 none).id (timedPut 3 none).value
      (timedPut 3 none).tags = 100 := by decide +kernel
  have hnow : e.tick.clock.nowMs = 3 := by decide +kernel
  have hbefore : e.stats = ⟨0, 0⟩ := by decide +kernel
  have hafter : (e.put .asStored (timedPut 3 none)).2.stats = ⟨1, 0⟩ := by decide +kernel
  rw [hsize, hnow] at hrooms
  refine ⟨expired, hrooms, ?_⟩
  have hsum : 1 = e.stats.expirations + expired.length :=
    congrArg EngineStats.expirations (hafter.symm.trans hstats)
  rw [hbefore, Nat.zero_add] at hsum
  exact hsum.symm

end Engine
end Cachebox

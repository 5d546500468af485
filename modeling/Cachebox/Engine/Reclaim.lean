import Cachebox.Engine.Inv

/-!
# Reclamation and eviction

The specifications of the loops that free memory: `remove_expired` removes entries whose removable
time has been reached by the reading it made, `evict_until_fits` removes sampled entries until the
incoming entry fits or nothing is left. `makeRoom` is their combination inside `put`.
-/

namespace Cachebox
namespace Engine

variable {e e' : Engine} {id id' : EntryId} {entry : Entry} {o : IterOrder}

/-! ## Expired entries -/

/-- The popped identifiers are those of distinct due keys, which are exactly what leaves the
index. -/
theorem popExpired_spec (maxEntries : Nat) (nowMs : UInt64) (index : Finset ExpiryKey)
    (expired : List EntryId) :
    ∃ keys : List ExpiryKey, keys.Nodup ∧ (∀ key ∈ keys, key ∈ index ∧ key.expiresAtMs ≤ nowMs) ∧
      (popExpired maxEntries nowMs index expired).1 = expired ++ keys.map (·.id) ∧
      ∀ key, key ∈ (popExpired maxEntries nowMs index expired).2 ↔ key ∈ index ∧ key ∉ keys := by
  fun_induction popExpired maxEntries nowMs index expired with
  | case1 => exact ⟨[], by simp⟩
  | case2 => exact ⟨[], by simp⟩
  | case3 index expired _ key hfirst hdue ih =>
    obtain ⟨keys, hnodup, hkeys, hids, hindex⟩ := ih
    have hle : key.expiresAtMs ≤ nowMs := UInt64.not_lt.mp hdue
    have hnew : key ∉ keys := fun hmem => (Finset.mem_erase.mp (hkeys key hmem).1).1 rfl
    refine ⟨key :: keys, List.nodup_cons.mpr ⟨hnew, hnodup⟩, ?_, ?_, fun key' => ?_⟩
    · intro key' hkey'
      rcases List.mem_cons.mp hkey' with rfl | hmem
      · exact ⟨Finset.mem_of_first hfirst, hle⟩
      · exact ⟨Finset.mem_of_mem_erase (hkeys key' hmem).1, (hkeys key' hmem).2⟩
    · rw [hids]
      simp
    · rw [hindex, Finset.mem_erase, List.mem_cons]
      tauto
  | case4 => exact ⟨[], by simp⟩

/-- The loop stops with less than it may pop when nothing that is left is due. -/
theorem popExpired_rest (maxEntries : Nat) (nowMs : UInt64) (index : Finset ExpiryKey)
    (expired : List EntryId)
    (h : (popExpired maxEntries nowMs index expired).1.length < maxEntries) :
    ∀ key ∈ (popExpired maxEntries nowMs index expired).2, nowMs < key.expiresAtMs := by
  fun_induction popExpired maxEntries nowMs index expired with
  | case1 index expired _ hfirst =>
    rw [Finset.first_eq_none_iff] at hfirst
    subst hfirst
    exact nofun
  | case2 index expired _ first hfirst hlate =>
    intro key hkey
    have hle := ExpiryKey.expiresAtMs_le ((Finset.first_eq_some_iff.mp hfirst).2 key hkey)
    exact UInt64.lt_of_lt_of_le hlate hle
  | case3 index expired _ first _ _ ih => exact ih h
  | case4 => exact absurd h ‹_›

/-- What `remove_expired` does to the entries: it removes the entries of a duplicate-free list of
keys that were due at the time it read. -/
theorem removeExpired_spec (H : e.Indexed (fun _ => True) (fun _ => True)) (maxEntries : Nat) :
    ∃ keys : List ExpiryKey, keys.Nodup ∧
      (∀ key ∈ keys, e.Due key ∧ key.expiresAtMs ≤ e.clock.nowMs) ∧
      ∃ index, (∀ key, key ∈ index ↔ e.Due key ∧ key ∉ keys) ∧
        (keys.length < maxEntries → ∀ key ∈ index, e.clock.nowMs < key.expiresAtMs) ∧
        e.removeExpired maxEntries =
          removeEach countExpiration { e.tick with expiryIndex := index } (keys.map (·.id)) := by
  obtain ⟨keys, hnodup, hkeys, hids, hindex⟩ :=
    popExpired_spec maxEntries e.clock.nowMs e.expiryIndex []
  refine ⟨keys, hnodup, fun key hkey => ⟨?_, (hkeys key hkey).2⟩,
    (popExpired maxEntries e.clock.nowMs e.expiryIndex []).2, fun key => ?_, fun hlen => ?_, ?_⟩
  · exact ((H.expiry key).mp (hkeys key hkey).1).1
  · rw [hindex, H.expiry]
    simp
  · refine popExpired_rest _ _ _ _ ?_
    rw [hids]
    simpa using hlen
  · rw [List.nil_append] at hids
    rw [← hids]
    rfl

theorem Inv.removeExpired (H : e.Inv) (maxEntries : Nat) : (e.removeExpired maxEntries).2.Inv := by
  obtain ⟨keys, -, hkeys, index, hindex, -, heq⟩ := removeExpired_spec H.indexed maxEntries
  rw [heq]
  have hpopped : { e.tick with expiryIndex := index }.Indexed (fun _ => True) (· ∉ keys) :=
    ⟨H.indexed.tags, H.indexed.noEmpty, hindex⟩
  have hremoved := hpopped.removeEach statsOnly_countExpiration (keys.map (·.id))
  have haccounted : { e.tick with expiryIndex := index }.Accounted :=
    ⟨H.accounted.entries, H.accounted.memory⟩
  refine ⟨⟨hremoved.tags, hremoved.noEmpty, fun key => ?_⟩,
    haccounted.removeEach statsOnly_countExpiration _,
    capped_removeEach (e := { e.tick with expiryIndex := index }) H.capped
      statsOnly_countExpiration _⟩
  rw [hremoved.expiry, and_true]
  refine ⟨And.left, fun hdue => ⟨hdue, fun hmem => ?_⟩⟩
  -- a popped key is no longer due: the loop has removed its entry
  obtain ⟨entry, hl, -⟩ := hdue
  rw [lookup_removeEach statsOnly_countExpiration,
    if_pos (List.mem_map_of_mem (f := (·.id)) hmem)] at hl
  cases hl

@[simp] theorem removeExpired_limits (e : Engine) (maxEntries : Nat) :
    (e.removeExpired maxEntries).2.limits = e.limits := by
  unfold Engine.removeExpired
  exact removeEach_limits statsOnly_countExpiration _ _

@[simp] theorem removeExpired_clock (e : Engine) (maxEntries : Nat) :
    (e.removeExpired maxEntries).2.clock = e.clock.tick := by
  unfold Engine.removeExpired
  exact removeEach_clock statsOnly_countExpiration _ _

/-- An entry that `remove_expired` takes away was due at the reading it made. -/
theorem lookup_removeExpired (H : e.Indexed (fun _ => True) (fun _ => True)) (maxEntries : Nat)
    (id : EntryId) :
    (e.removeExpired maxEntries).2.entries.lookup id = e.entries.lookup id ∨
      (e.removeExpired maxEntries).2.entries.lookup id = none ∧
        ∃ t, e.Due ⟨t, id⟩ ∧ t ≤ e.clock.nowMs := by
  obtain ⟨keys, -, hkeys, index, -, -, heq⟩ := removeExpired_spec H maxEntries
  rw [heq, lookup_removeEach statsOnly_countExpiration]
  split
  · next hmem =>
    obtain ⟨⟨t, id⟩, hkey, rfl⟩ := List.mem_map.mp hmem
    exact .inr ⟨rfl, t, hkeys _ hkey⟩
  · exact .inl rfl

/-! ## Eviction -/

theorem leastRecentlyUsedEntry_eq_none_iff :
    e.leastRecentlyUsedEntry o = none ↔ e.entries = ∅ := by
  have hempty : (o.order e.entries.entries).take lruSampleSize = [] ↔ e.entries.entries = [] := by
    rw [List.take_eq_nil_iff]
    simp [lruSampleSize]
  rw [leastRecentlyUsedEntry, Option.map_eq_none_iff, List.argmin_eq_none, hempty]
  exact ⟨fun h => AList.ext h, fun h => by rw [h]; rfl⟩

/-- The victim is a stored entry, whatever the iteration order. -/
theorem leastRecentlyUsedEntry_stored (h : e.leastRecentlyUsedEntry o = some id) :
    ∃ entry, e.entries.lookup id = some entry := by
  obtain ⟨⟨id', entry⟩, hmin, rfl⟩ := Option.map_eq_some_iff.mp h
  refine ⟨entry, HashMap.lookup_eq_some_iff_mem.mpr ?_⟩
  exact o.mem_order.mp (List.mem_of_mem_take (List.argmin_mem hmin))

theorem removeEntry_leastRecentlyUsedEntry (h : e.leastRecentlyUsedEntry o = some id) :
    (e.removeEntry id).1 = true := by
  obtain ⟨entry, hl⟩ := leastRecentlyUsedEntry_stored h
  rw [removeEntry_fst, hl]
  rfl

/-- The identifiers `evict_until_fits` removes, in the order of their removal. -/
def evictVictims (o : IterOrder) (e : Engine) (incomingBytes : Nat) : List EntryId :=
  if e.memoryUsedBytes + incomingBytes > e.limits.maxMemoryBytes then
    match e.leastRecentlyUsedEntry o with
    | none => []
    | some id =>
      match _h : e.removeEntry id with
      | (true, e') => id :: evictVictims o e'.countEviction incomingBytes
      | (false, _) => []
  else []
termination_by e.entries.entries.length
decreasing_by simpa [countEviction] using removeEntry_length_lt _h

theorem Inv.countEviction (H : e.Inv) : e.countEviction.Inv := H.congr rfl rfl rfl rfl rfl

/-- What one removal with its bookkeeping preserves, the eviction loop preserves. -/
theorem evictUntilFits_invariant {I : Engine → Prop}
    (hremove : ∀ e id, I e → I (e.removeEntry id).2.countEviction) (o : IterOrder) {e : Engine}
    (h : I e) (incomingBytes : Nat) : I (evictUntilFits o e incomingBytes).2 := by
  fun_induction evictUntilFits o e incomingBytes with
  | case1 => exact h
  | case2 e _ id _ e' heq evicted e'' hrec ih =>
    rw [hrec] at ih
    refine ih ?_
    have hr := hremove e id h
    rw [heq] at hr
    exact hr
  | case3 e _ id hlru e' heq =>
    have hstored := removeEntry_leastRecentlyUsedEntry hlru
    rw [heq] at hstored
    cases hstored
  | case4 => exact h

theorem Inv.evictUntilFits (H : e.Inv) (o : IterOrder) (incomingBytes : Nat) :
    (evictUntilFits o e incomingBytes).2.Inv :=
  evictUntilFits_invariant (fun _ id h => (h.removeEntry id).countEviction) o H incomingBytes

@[simp] theorem evictUntilFits_limits (o : IterOrder) (e : Engine) (incomingBytes : Nat) :
    (evictUntilFits o e incomingBytes).2.limits = e.limits :=
  evictUntilFits_invariant (I := fun e' => e'.limits = e.limits)
    (fun e' id h => (removeEntry_limits e' id).trans h) o rfl incomingBytes

/-- The loop returns the number of its victims, and removes exactly them. -/
theorem evictUntilFits_victims (o : IterOrder) (e : Engine) (incomingBytes : Nat) :
    (evictUntilFits o e incomingBytes).1 = (evictVictims o e incomingBytes).length ∧
      ∀ id, (evictUntilFits o e incomingBytes).2.entries.lookup id =
        if id ∈ evictVictims o e incomingBytes then none else e.entries.lookup id := by
  fun_induction evictUntilFits o e incomingBytes with
  | case1 e hover hlru =>
    unfold evictVictims
    simp [hover, hlru]
  | case2 e hover id hlru e' heq evicted e'' hrec ih =>
    rw [hrec] at ih
    obtain ⟨hcount, hlookup⟩ := ih
    have hentries := congrArg (fun p => p.2.entries) heq
    dsimp only at hentries
    rw [removeEntry_entries] at hentries
    unfold evictVictims
    rw [if_pos hover]
    simp only [hlru]
    split
    · next e₁ heq₁ =>
      cases heq.symm.trans heq₁
      refine ⟨congrArg (· + 1) hcount, fun id' => ?_⟩
      have hstep : e'.countEviction.entries.lookup id' =
          if id' = id then none else e.entries.lookup id' := by
        rw [← HashMap.lookup_erase', hentries]
        rfl
      rw [hlookup, hstep]
      by_cases hid : id' = id <;> simp [hid]
    · next heq₁ => cases heq.symm.trans heq₁
  | case3 e hover id hlru e' heq =>
    have hstored := removeEntry_leastRecentlyUsedEntry hlru
    rw [heq] at hstored
    cases hstored
  | case4 e hover =>
    unfold evictVictims
    simp [hover]

theorem evictVictims_stored {incomingBytes : Nat} (h : id ∈ evictVictims o e incomingBytes) :
    (e.entries.lookup id).isSome := by
  fun_induction evictVictims o e incomingBytes with
  | case2 e _ id₀ hlru e' heq ih =>
    rcases List.mem_cons.mp h with rfl | hmem
    · obtain ⟨entry, hl⟩ := leastRecentlyUsedEntry_stored hlru
      rw [hl]
      rfl
    · have hentries := removeEntry_entries e id₀
      have hstored := ih hmem
      rw [heq] at hentries
      rw [show e'.countEviction.entries = _ from hentries, HashMap.lookup_erase'] at hstored
      split at hstored
      · cases hstored
      · exact hstored
  | case1 | case3 | case4 => cases h

/-- No entry is evicted twice. -/
theorem evictVictims_nodup (o : IterOrder) (e : Engine) (incomingBytes : Nat) :
    (evictVictims o e incomingBytes).Nodup := by
  fun_induction evictVictims o e incomingBytes with
  | case2 e _ id _ e' heq ih =>
    refine List.nodup_cons.mpr ⟨fun hmem => ?_, ih⟩
    have hentries := removeEntry_entries e id
    have hstored := evictVictims_stored hmem
    rw [heq] at hentries
    rw [show e'.countEviction.entries = _ from hentries, HashMap.lookup_erase', if_pos rfl]
      at hstored
    cases hstored
  | case1 | case3 | case4 => exact List.nodup_nil

/-- The loop stops with enough room or with no entry left. -/
theorem evictUntilFits_fits (o : IterOrder) (e : Engine) (incomingBytes : Nat) :
    (evictUntilFits o e incomingBytes).2.memoryUsedBytes + incomingBytes ≤
        e.limits.maxMemoryBytes ∨
      (evictUntilFits o e incomingBytes).2.entries = ∅ := by
  fun_induction evictUntilFits o e incomingBytes with
  | case1 e _ hlru => exact .inr (leastRecentlyUsedEntry_eq_none_iff.mp hlru)
  | case2 e _ id _ e' heq evicted e'' hrec ih =>
    have hlimits := congrArg (fun p => p.2.limits) heq
    dsimp only at hlimits
    rw [removeEntry_limits] at hlimits
    rw [hrec] at ih
    rw [hlimits]
    exact ih
  | case3 e _ id hlru e' heq =>
    have hstored := removeEntry_leastRecentlyUsedEntry hlru
    rw [heq] at hstored
    cases hstored
  | case4 e hover => exact .inl (Nat.not_lt.mp hover)

/-! ## Making room for a put -/

/-- The identifiers evicted to make room for an entry of the given size. -/
def roomVictims (o : IterOrder) (e : Engine) (id : EntryId) (entryMemoryBytes : Nat) :
    List EntryId :=
  evictVictims o (e.dropAndReclaim id entryMemoryBytes) entryMemoryBytes

theorem Inv.dropAndReclaim (H : e.Inv) (id : EntryId) (entryMemoryBytes : Nat) :
    (e.dropAndReclaim id entryMemoryBytes).Inv := by
  unfold Engine.dropAndReclaim
  dsimp only
  split
  · exact (H.removeEntry id).removeExpired _
  · exact H.removeEntry id

theorem dropAndReclaim_limits (e : Engine) (id : EntryId) (entryMemoryBytes : Nat) :
    (e.dropAndReclaim id entryMemoryBytes).limits = e.limits := by
  unfold dropAndReclaim
  dsimp only
  split
  · exact (removeExpired_limits _ _).trans (removeEntry_limits e id)
  · exact removeEntry_limits e id

/-- Before eviction an entry is gone only if it is the old entry of the key, or was due at the
reading of the reclaimer. -/
theorem lookup_dropAndReclaim (H : e.Inv) (id : EntryId) (entryMemoryBytes : Nat)
    (id' : EntryId) :
    (e.dropAndReclaim id entryMemoryBytes).entries.lookup id' =
        (if id' = id then none else e.entries.lookup id') ∨
      (e.dropAndReclaim id entryMemoryBytes).entries.lookup id' = none ∧
        (e.dropAndReclaim id entryMemoryBytes).clock = e.clock.tick ∧
        ∃ t, e.Due ⟨t, id'⟩ ∧ t ≤ e.clock.nowMs := by
  unfold dropAndReclaim
  dsimp only
  have hl : (e.removeEntry id).2.entries.lookup id' =
      if id' = id then none else e.entries.lookup id' := by
    rw [removeEntry_entries, HashMap.lookup_erase']
  split
  · rcases lookup_removeExpired (H.removeEntry id).indexed usizeMax id' with h | ⟨h, t, hdue, ht⟩
    · exact .inl (h.trans hl)
    · rw [removeEntry_clock] at ht
      refine .inr ⟨h, ?_, t, (due_removeEntry.mp hdue).1, ht⟩
      rw [Engine.reclaimExpired, reclaimExpiredBudget, removeExpired_clock, removeEntry_clock]
  · exact .inl hl

theorem Inv.makeRoom (H : e.Inv) (o : IterOrder) (id : EntryId) (entryMemoryBytes : Nat) :
    (makeRoom o e id entryMemoryBytes).2.Inv :=
  (H.dropAndReclaim id entryMemoryBytes).evictUntilFits o entryMemoryBytes

theorem makeRoom_limits (o : IterOrder) (e : Engine) (id : EntryId) (entryMemoryBytes : Nat) :
    (makeRoom o e id entryMemoryBytes).2.limits = e.limits :=
  (evictUntilFits_limits o _ _).trans (dropAndReclaim_limits e id entryMemoryBytes)

/-- **There is always room** for an entry that fits the cap by itself: the loop ends with enough
room, or with no entry and then no charged memory. -/
theorem makeRoom_fits (H : e.Inv) (o : IterOrder) (id : EntryId) {entryMemoryBytes : Nat}
    (h : entryMemoryBytes ≤ e.limits.maxMemoryBytes) :
    (makeRoom o e id entryMemoryBytes).2.memoryUsedBytes + entryMemoryBytes ≤
      e.limits.maxMemoryBytes := by
  rcases evictUntilFits_fits o (e.dropAndReclaim id entryMemoryBytes) entryMemoryBytes with
    hfits | hempty
  · rw [dropAndReclaim_limits] at hfits
    exact hfits
  · have hmemory := (H.makeRoom o id entryMemoryBytes).accounted.memory
    have hzero : (Engine.makeRoom o e id entryMemoryBytes).2.memoryUsedBytes = 0 := by
      rw [hmemory, Engine.makeRoom, hempty]
      rfl
    rw [hzero, Nat.zero_add]
    exact h

/-- The old entry of the key is gone when room has been made. -/
theorem lookup_makeRoom_self (H : e.Inv) (o : IterOrder) (id : EntryId) (entryMemoryBytes : Nat) :
    (makeRoom o e id entryMemoryBytes).2.entries.lookup id = none := by
  unfold makeRoom
  rw [(evictUntilFits_victims o _ _).2]
  split
  · rfl
  · rcases lookup_dropAndReclaim H id entryMemoryBytes id with h | ⟨h, -⟩
    · rw [h, if_pos rfl]
    · exact h

/-- Room is made by dropping the old entry of the key, reclaiming due entries and evicting. -/
theorem lookup_makeRoom (H : e.Inv) (o : IterOrder) {id id' : EntryId} (entryMemoryBytes : Nat)
    (hne : id' ≠ id) :
    (makeRoom o e id entryMemoryBytes).2.entries.lookup id' = e.entries.lookup id' ∨
      (makeRoom o e id entryMemoryBytes).2.entries.lookup id' = none ∧
        (id' ∈ roomVictims o e id entryMemoryBytes ∨
          (e.dropAndReclaim id entryMemoryBytes).clock = e.clock.tick ∧
            ∃ t, e.Due ⟨t, id'⟩ ∧ t ≤ e.clock.nowMs) := by
  have hlookup := (evictUntilFits_victims o (e.dropAndReclaim id entryMemoryBytes)
    entryMemoryBytes).2 id'
  rw [makeRoom, hlookup]
  split
  · next hmem => exact .inr ⟨rfl, .inl hmem⟩
  · rcases lookup_dropAndReclaim H id entryMemoryBytes id' with h | ⟨h, hdue⟩
    · rw [if_neg hne] at h
      exact .inl h
    · exact .inr ⟨h, .inr hdue⟩

end Engine
end Cachebox

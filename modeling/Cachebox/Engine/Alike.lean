import Cachebox.Engine.LeaseTokens
import Cachebox.Engine.Tags

/-!
# Engines that agree on a key

An operation on one key depends on what the engine holds at the key, on the readings of the clock
and, if it writes, on the memory that is left. So two engines that hold the same at a key answer
alike and still hold the same afterwards (`Alike`), whatever else they hold. Access stamps differ
between the engines, and so do the lease tokens, which are minted from the same counter: tokens are
compared up to a renaming.

`Frame` is the other half: an operation on one key leaves the rest of the engine alone, and it can
do so because it finds room for what it writes (`put_cases_of_room`). The operations on many keys
remove what satisfies a condition on the entry (`Purges`).
-/

namespace Cachebox

/-- An entry without its access stamp. -/
def Entry.content (entry : Entry) : Entry := { entry with lastAccess := 0 }

def Lease.renamed (ρ : String → String) (lease : Lease) : Lease :=
  ⟨ρ lease.token, lease.expiresAtMs⟩

def StartLeaseOutcome.renamed (ρ : String → String) : StartLeaseOutcome → StartLeaseOutcome
  | .leaseGranted token staleValue => .leaseGranted (ρ token) staleValue
  | outcome => outcome

/-- The token of a granted lease. -/
def StartLeaseOutcome.token? : StartLeaseOutcome → Option String
  | .leaseGranted token _ => some token
  | _ => none

theorem StartLeaseOutcome.token?_renamed (ρ : String → String) (outcome : StartLeaseOutcome) :
    (outcome.renamed ρ).token? = outcome.token?.map ρ := by
  cases outcome <;> rfl

theorem StartLeaseOutcome.renamed_congr {ρ ρ' : String → String} {outcome : StartLeaseOutcome}
    (h : ∀ token, outcome.token? = some token → ρ' token = ρ token) :
    outcome.renamed ρ' = outcome.renamed ρ := by
  cases outcome with
  | leaseGranted token staleValue => simp only [renamed, h token rfl]
  | _ => rfl

/-- The error of an engine with another memory budget. -/
def PutError.withBudget (maxMemoryBytes : Nat) : PutError → PutError
  | .valueTooLargeForMemory entryBytes _ => .valueTooLargeForMemory entryBytes maxMemoryBytes
  | error => error

def CompleteLeaseError.withBudget (maxMemoryBytes : Nat) : CompleteLeaseError → CompleteLeaseError
  | .put error => .put (error.withBudget maxMemoryBytes)
  | error => error

/-- The mutation changes nothing but what is stored for `id`. -/
def Mutation.Only (id : EntryId) : Mutation → Prop
  | .tick => True
  | .remove id' | .access id' | .store id' _ | .dropLease id' | .grantLease id' _ => id' = id
  | .setExpiryIndex _ | .hideTag _ | .setStats _ => False

namespace Engine

variable {e e' f : Engine} {id id' : EntryId} {ρ : String → String}

/-- A read of a key changes nothing but the key. -/
theorem does_getRefInner_only {R : Type} (ns : String) (key : Bytes) (updateAccess : Bool)
    (map : GetOutcomeRef → R) (e : Engine) :
    Does (Mutation.Only ⟨ns, key⟩) e (e.getRefInner ns key updateAccess map).2 := by
  have hremove : (Mutation.remove ⟨ns, key⟩).Only ⟨ns, key⟩ := rfl
  have haccess : (Mutation.access ⟨ns, key⟩).Only ⟨ns, key⟩ := rfl
  exact .getRefInner trivial ns key hremove haccess updateAccess map e

theorem does_startLease_only (ns : String) (key : Bytes) (leaseTtlMs : UInt64) (e : Engine) :
    Does (Mutation.Only ⟨ns, key⟩) e (e.startLease ns key leaseTtlMs).2 := by
  have hremove : (Mutation.remove ⟨ns, key⟩).Only ⟨ns, key⟩ := rfl
  have haccess : (Mutation.access ⟨ns, key⟩).Only ⟨ns, key⟩ := rfl
  have hgrant : (Mutation.grantLease ⟨ns, key⟩ leaseTtlMs).Only ⟨ns, key⟩ := rfl
  exact .startLease trivial hremove haccess hgrant e

theorem does_delete_only (ns : String) (key : Bytes) (e : Engine) :
    Does (Mutation.Only ⟨ns, key⟩) e (e.delete ns key).2 := by
  have hdrop : Does (Mutation.Only ⟨ns, key⟩) e (e.dropLease ⟨ns, key⟩) :=
    .single (m := .dropLease ⟨ns, key⟩) rfl
  exact hdrop.step (m := .remove ⟨ns, key⟩) rfl

def len (e : Engine) : Nat := e.entries.entries.length

/-! ## Writing with room to spare -/

/-- The memory that is charged once the command has put its entry in the place of the old one. -/
def chargedWith (e : Engine) (command : PutCommand) : Nat :=
  (e.removeEntry command.id).2.memoryUsedBytes +
    estimateEntryMemory command.id command.value command.tags

theorem chargedWith_congr (e e' : Engine) (hentries : e'.entries = e.entries)
    (hmemory : e'.memoryUsedBytes = e.memoryUsedBytes) (command : PutCommand) :
    e'.chargedWith command = e.chargedWith command := by
  simp only [chargedWith, removeEntry, hentries]
  split <;> simp only [hmemory]

/-- A put that has to reclaim nothing. -/
theorem put_of_room {command : PutCommand} (o : IterOrder)
    (hvalue : command.value.length ≤ e.limits.maxValueBytes)
    (hroom : e.chargedWith command ≤ e.limits.maxMemoryBytes) :
    e.put o command = (.ok ⟨0⟩, (e.tick.removeEntry command.id).2.storeEntry command.id
      (command.entry e.clock.nowMs (e.tick.removeEntry command.id).2.nextAccess)) := by
  have hcharged : (e.tick.removeEntry command.id).2.memoryUsedBytes +
      estimateEntryMemory command.id command.value command.tags ≤ e.limits.maxMemoryBytes := by
    rw [← chargedWith_congr e e.tick rfl rfl command] at hroom
    exact hroom
  have hsize : ¬ estimateEntryMemory command.id command.value command.tags >
      e.limits.maxMemoryBytes := by omega
  have hdrop : e.tick.dropAndReclaim command.id
      (estimateEntryMemory command.id command.value command.tags) =
        (e.tick.removeEntry command.id).2 := by
    unfold dropAndReclaim
    dsimp only
    rw [removeEntry_limits]
    exact if_neg (Nat.not_lt.mpr hcharged)
  have hmake : makeRoom o e.tick command.id
      (estimateEntryMemory command.id command.value command.tags) =
        (0, (e.tick.removeEntry command.id).2) := by
    unfold makeRoom evictUntilFits
    rw [hdrop, removeEntry_limits]
    exact if_neg (Nat.not_lt.mpr hcharged)
  unfold put
  rw [if_neg (Nat.not_lt.mpr hvalue)]
  dsimp only
  rw [if_neg (show ¬ _ > e.tick.limits.maxMemoryBytes from hsize), hmake]
  dsimp only
  rw [removeEntry_limits]
  exact if_neg (Nat.not_lt.mpr hcharged)

/-- Such a put changes nothing but its own key. -/
theorem does_put_of_room (H : e.Inv) (o : IterOrder) (command : PutCommand)
    (hroom : command.value.length ≤ e.limits.maxValueBytes →
      estimateEntryMemory command.id command.value command.tags ≤ e.limits.maxMemoryBytes →
        e.chargedWith command ≤ e.limits.maxMemoryBytes) :
    Does (Mutation.Only command.id) e (e.put o command).2 := by
  rcases put_cases H o command with ⟨-, heq⟩ | ⟨-, -, heq⟩ | ⟨hvalue, hest, -⟩
  · rw [heq]
    exact .refl
  · rw [heq]
    exact .single (m := .tick) trivial
  · rw [put_of_room o hvalue (hroom hvalue hest)]
    have htick : Does (Mutation.Only command.id) e e.tick := .single (m := .tick) trivial
    exact (htick.step (m := .remove command.id) rfl).step (m := .store command.id _) rfl

/-- A completion that finds room changes nothing but its own key. -/
theorem does_completeLease_of_room (H : e.Inv) (o : IterOrder) (command : CompleteLeaseCommand)
    (hroom : ∀ lease, e.leases.lookup command.id = some lease →
      e.clock.nowMs ≤ lease.expiresAtMs → lease.token = command.leaseToken →
        command.value.length ≤ e.limits.maxValueBytes →
          estimateEntryMemory command.id command.value command.tags ≤ e.limits.maxMemoryBytes →
            e.chargedWith command.toPut ≤ e.limits.maxMemoryBytes) :
    Does (Mutation.Only command.id) e (e.completeLease o command).2 := by
  have htick : Does (Mutation.Only command.id) e e.tick := .single (m := .tick) trivial
  cases hl : e.leases.lookup command.id with
  | none =>
    simp only [completeLease, activeLease, hl]
    exact .single (m := .dropLease command.id) rfl
  | some lease =>
    have hdrop : Does (Mutation.Only command.id) e (e.tick.dropLease command.id) :=
      htick.step (m := .dropLease command.id) rfl
    rw [completeLease_of_some hl]
    split_ifs with hle heq
    · refine hdrop.trans (does_put_of_room (H.tick.dropLease _) o command.toPut ?_)
      rw [chargedWith_congr e (e.tick.dropLease command.id) rfl rfl]
      exact hroom lease hl hle heq
    · exact htick
    · exact hdrop

/-! ## What an operation on one key leaves alone -/

@[simp] theorem removeEntry_nextAccess (e : Engine) (id : EntryId) :
    (e.removeEntry id).2.nextAccess = e.nextAccess := by
  unfold removeEntry
  split <;> rfl

@[simp] theorem removeEntry_stats (e : Engine) (id : EntryId) :
    (e.removeEntry id).2.stats = e.stats := by
  unfold removeEntry
  split <;> rfl

theorem recordAccess_clock (e : Engine) (id : EntryId) : (e.recordAccess id).clock = e.clock := by
  unfold recordAccess
  split <;> rfl

theorem lookup_leases_removeEntry (e : Engine) (id id' : EntryId) :
    (e.removeEntry id).2.leases.lookup id' =
      if id' = id ∧ (e.entries.lookup id).isSome then none else e.leases.lookup id' := by
  cases hl : e.entries.lookup id with
  | none => simp [removeEntry_of_none hl]
  | some entry =>
    simp only [removeEntry, hl, HashMap.lookup_erase', Option.isSome_some, and_true]

/-- Nothing but the key has changed, and the entries have not grown faster than the counter of
accesses. -/
structure Frame (id : EntryId) (e e' : Engine) : Prop where
  entries : ∀ id', id' ≠ id → e'.entries.lookup id' = e.entries.lookup id'
  leases : ∀ id', id' ≠ id → e'.leases.lookup id' = e.leases.lookup id'
  stats : e'.stats = e.stats
  nextAccess : e.nextAccess ≤ e'.nextAccess
  len : e'.nextAccess.toNat < UInt64.maxNat →
    e'.len + e.nextAccess.toNat ≤ e.len + e'.nextAccess.toNat

theorem Frame.refl (id : EntryId) (e : Engine) : Frame id e e :=
  ⟨fun _ _ => rfl, fun _ _ => rfl, rfl, UInt64.le_refl _, fun _ => Nat.le_refl _⟩

theorem Frame.trans {e'' : Engine} (h : Frame id e e') (h' : Frame id e' e'') :
    Frame id e e'' := by
  refine ⟨fun id' hid => (h'.entries id' hid).trans (h.entries id' hid),
    fun id' hid => (h'.leases id' hid).trans (h.leases id' hid), h'.stats.trans h.stats,
    UInt64.le_trans h.nextAccess h'.nextAccess, fun hcount => ?_⟩
  have hle := h'.nextAccess
  rw [UInt64.le_iff_toNat_le] at hle
  have hfirst := h.len (Nat.lt_of_le_of_lt hle hcount)
  have hsecond := h'.len hcount
  omega

theorem frame_apply {m : Mutation} (hm : m.Only id) (e : Engine) : Frame id e (m.apply e) := by
  have hnext := nextAccess_le_apply e m
  cases m with
  | tick => exact ⟨fun _ _ => rfl, fun _ _ => rfl, rfl, hnext, fun _ => Nat.le_refl _⟩
  | remove id' =>
    obtain rfl : id' = id := hm
    refine ⟨fun id hid => ?_, fun id hid => ?_, removeEntry_stats e id', hnext, fun _ => ?_⟩
    · rw [Mutation.apply, removeEntry_entries, HashMap.lookup_erase', if_neg hid]
    · rw [Mutation.apply, lookup_leases_removeEntry, if_neg fun h => hid h.1]
    · have hlen := HashMap.length_erase_le e.entries id'
      simp only [Mutation.apply, len, removeEntry_entries, removeEntry_nextAccess]
      omega
  | access id' =>
    obtain rfl : id' = id := hm
    cases hl : e.entries.lookup id' with
    | none =>
      simp only [Mutation.apply, recordAccess, hl]
      exact .refl id' e
    | some entry =>
      have hlen := HashMap.length_insert e.entries id' { entry with lastAccess := e.nextAccess }
      have herase := HashMap.length_erase_lt hl
      rw [UInt64.le_iff_toNat_le] at hnext
      simp only [Mutation.apply, recordAccess, hl] at hnext ⊢
      refine ⟨fun id hid => ?_, fun _ _ => rfl, rfl, UInt64.le_saturatingAdd .., fun _ => ?_⟩
      · exact (HashMap.lookup_insert' ..).trans (if_neg hid)
      · simp only [len, touch] at hnext ⊢
        omega
  | store id' entry =>
    obtain rfl : id' = id := hm
    refine ⟨fun id hid => ?_, fun _ _ => rfl, rfl, hnext, fun hcount => ?_⟩
    · exact (HashMap.lookup_insert' ..).trans (if_neg hid)
    · have hlen := HashMap.length_insert e.entries id' entry
      have herase := HashMap.length_erase_le e.entries id'
      simp only [Mutation.apply, storeEntry, UInt64.toNat_saturatingAdd, UInt64.toNat_one, len]
        at hcount ⊢
      omega
  | dropLease id' =>
    obtain rfl : id' = id := hm
    refine ⟨fun _ _ => rfl, fun id hid => ?_, rfl, hnext, fun _ => Nat.le_refl _⟩
    exact (HashMap.lookup_erase' ..).trans (if_neg hid)
  | grantLease id' leaseTtlMs =>
    obtain rfl : id' = id := hm
    refine ⟨fun _ _ => rfl, fun id hid => ?_, rfl, hnext, fun _ => ?_⟩
    · exact (HashMap.lookup_insert' ..).trans (if_neg hid)
    · rw [UInt64.le_iff_toNat_le] at hnext
      exact Nat.add_le_add_left hnext _
  | setExpiryIndex | hideTag | setStats => exact hm.elim

theorem Does.frame (h : Does (Mutation.Only id) e e') : Frame id e e' :=
  h.rel (R := Frame id) (Frame.refl id) Frame.trans fun e _ hm => frame_apply hm e

/-! ## Operations on many keys -/

/-- `e'` is `e` without the entries that satisfy `P`, of which there were `count`. -/
structure Purges (P : EntryId → Entry → Prop) (count : Nat) (e e' : Engine) : Prop where
  removed : ∀ id entry, e.entries.lookup id = some entry → P id entry →
    e'.entries.lookup id = none ∧ e'.leases.lookup id = none
  kept : ∀ id, (∀ entry, e.entries.lookup id = some entry → ¬ P id entry) →
    e'.entries.lookup id = e.entries.lookup id ∧ e'.leases.lookup id = e.leases.lookup id
  count : count + e'.len = e.len
  nextAccess : e'.nextAccess = e.nextAccess

/-- Nothing is left to do for an engine without such entries. -/
theorem Purges.of_none {P : EntryId → Entry → Prop}
    (h : ∀ id entry, e.entries.lookup id = some entry → ¬ P id entry) : Purges P 0 e e :=
  ⟨fun id entry hl hP => absurd hP (h id entry hl), fun _ _ => ⟨rfl, rfl⟩, Nat.zero_add _, rfl⟩

section
variable {g : Engine → Engine}

theorem removeEach_len (hg : StatsOnly g) (e : Engine) (ids : List EntryId) :
    (removeEach g e ids).1 + (removeEach g e ids).2.len = e.len := by
  induction ids generalizing e with
  | nil => exact Nat.zero_add _
  | cons id ids ih =>
    cases hl : e.entries.lookup id with
    | none => simpa only [removeEach, removeEntry_of_none hl] using ih e
    | some entry =>
      have hlen : e.len = (e.removeEntry id).2.len + 1 := by
        simp only [len, removeEntry_entries]
        exact (HashMap.entries_perm_erase hl).length_eq
      have hrest := ih (g (e.removeEntry id).2)
      have hg' : (g (e.removeEntry id).2).len = (e.removeEntry id).2.len := by
        simp only [len, hg.entries]
      have hfst : (e.removeEntry id).1 = true := by simp [hl]
      have hpair : e.removeEntry id = (true, (e.removeEntry id).2) := Prod.ext hfst rfl
      unfold removeEach
      rw [hpair]
      dsimp only
      omega

theorem lookup_leases_removeEach (hg : StatsOnly g) (e : Engine) (ids : List EntryId)
    (id : EntryId) :
    (removeEach g e ids).2.leases.lookup id =
      if id ∈ ids ∧ (e.entries.lookup id).isSome then none else e.leases.lookup id := by
  induction ids generalizing e with
  | nil => simp [removeEach]
  | cons id₀ ids ih =>
    have hlease := lookup_leases_removeEntry e id₀ id
    have hentry : (e.removeEntry id₀).2.entries.lookup id =
        if id = id₀ then none else e.entries.lookup id := by
      rw [removeEntry_entries, HashMap.lookup_erase']
    have hleases : ∀ e₁ : Engine, (g e₁).leases = e₁.leases := fun e₁ => by rw [hg.eq]
    have hstep : ∀ e₁ : Engine, e₁.entries = (e.removeEntry id₀).2.entries →
        e₁.leases = (e.removeEntry id₀).2.leases → (removeEach g e₁ ids).2.leases.lookup id =
          if id ∈ id₀ :: ids ∧ (e.entries.lookup id).isSome then none
          else e.leases.lookup id := by
      intro e₁ hentries₁ hleases₁
      rw [ih, hentries₁, hleases₁, hentry, hlease]
      by_cases hid : id = id₀
      · subst hid
        simp
      · simp [hid]
    unfold removeEach
    split
    · next heq => exact hstep _ (by rw [hg.entries, heq]) (by rw [hleases, heq])
    · next heq => exact hstep _ (by rw [heq]) (by rw [heq])

theorem removeEach_nextAccess (hg : StatsOnly g) (e : Engine) (ids : List EntryId) :
    (removeEach g e ids).2.nextAccess = e.nextAccess :=
  removeEach_invariant (I := fun e' => e'.nextAccess = e.nextAccess)
    (fun e' h => by rw [hg.eq]; exact h) (fun e' id h => by rw [removeEntry_nextAccess]; exact h)
    rfl ids

theorem purges_removeEach {P : EntryId → Entry → Prop} (hg : StatsOnly g) {ids : List EntryId}
    (hids : ∀ id, id ∈ ids ↔ ∃ entry, e.entries.lookup id = some entry ∧ P id entry) :
    Purges P (removeEach g e ids).1 e (removeEach g e ids).2 := by
  refine ⟨fun id entry hl hP => ?_, fun id hnot => ?_, removeEach_len hg e ids,
    removeEach_nextAccess hg e ids⟩
  · have hmem := (hids id).mpr ⟨entry, hl, hP⟩
    rw [lookup_removeEach hg, lookup_leases_removeEach hg, if_pos hmem,
      if_pos ⟨hmem, Option.isSome_of_mem hl⟩]
    exact ⟨rfl, rfl⟩
  · have hmem : id ∉ ids := by
      intro hmem
      obtain ⟨entry, hl, hP⟩ := (hids id).mp hmem
      exact hnot entry hl hP
    rw [lookup_removeEach hg, lookup_leases_removeEach hg, if_neg hmem, if_neg fun h => hmem h.1]
    exact ⟨rfl, rfl⟩

end

/-- The entry is in the namespace of the tag and has the tag. -/
def HasTag (ns tag : String) (id : EntryId) (entry : Entry) : Prop :=
  id.ns = ns ∧ tag ∈ entry.tags

theorem purges_invalidateTag (H : e.Inv) (o : IterOrder) (ns tag : String) :
    Purges (HasTag ns tag) (e.invalidateTag o ns tag).1 e (e.invalidateTag o ns tag).2 := by
  obtain ⟨ids, -, hids, heq⟩ := invalidateTag_spec H o ns tag
  have h := purges_removeEach (e := { e with tagIndex := e.tagIndex.erase ⟨ns, tag⟩ })
    (P := HasTag ns tag) statsOnly_self hids
  rw [heq]
  exact ⟨h.removed, h.kept, h.count, h.nextAccess⟩

theorem invalidateTag_stats (e : Engine) (o : IterOrder) (ns tag : String) :
    (e.invalidateTag o ns tag).2.stats = e.stats := by
  unfold invalidateTag
  dsimp only
  split
  · rfl
  · refine removeEach_invariant (I := fun e' => e'.stats = e.stats) (fun _ h => h)
      (fun e' id h => ?_) ?_ _
    · rw [removeEntry_stats]
      exact h
    · rfl

/-- The entry is removable at the time `nowMs`. -/
def Removable (nowMs : UInt64) (_ : EntryId) (entry : Entry) : Prop :=
  ∃ t, removableAtMs entry.expiresAtMs entry.staleUntilMs = some t ∧ t ≤ nowMs

/-- With a budget that its entries cannot use up, an engine reclaims every removable entry. -/
theorem removeExpired_ids (H : e.Inv) {maxEntries : Nat} (hlen : e.len < maxEntries) :
    ∃ ids : List EntryId, ids.Nodup ∧
      (∀ id, id ∈ ids ↔
        ∃ entry, e.entries.lookup id = some entry ∧ Removable e.clock.nowMs id entry) ∧
      (e.removeExpired maxEntries).1 = ids.length ∧
      ∃ index, e.removeExpired maxEntries =
        removeEach countExpiration { e.tick with expiryIndex := index } ids := by
  obtain ⟨keys, hnodup, hkeys, index, hindex, hrest, heq⟩ :=
    removeExpired_spec H.indexed maxEntries
  have hdistinct : (keys.map (·.id)).Nodup := by
    refine hnodup.map_on fun key hkey key' hkey' hid => ?_
    obtain ⟨t, id⟩ := key
    obtain ⟨t', id'⟩ := key'
    obtain rfl : id = id' := hid
    obtain ⟨entry, hl, ht⟩ := (hkeys _ hkey).1
    obtain ⟨entry', hl', ht'⟩ := (hkeys _ hkey').1
    cases hl.symm.trans hl'
    cases ht.symm.trans ht'
    rfl
  have hstored : ∀ id ∈ keys.map (·.id), (e.entries.lookup id).isSome := by
    intro id hmem
    obtain ⟨key, hkey, rfl⟩ := List.mem_map.mp hmem
    obtain ⟨entry, hl, -⟩ := (hkeys key hkey).1
    exact Option.isSome_of_mem hl
  have hcount : (e.removeExpired maxEntries).1 = (keys.map (·.id)).length := by
    rw [heq]
    exact removeEach_count (e := { e.tick with expiryIndex := index }) statsOnly_countExpiration
      hdistinct hstored
  have hsum : (e.removeExpired maxEntries).1 + (e.removeExpired maxEntries).2.len = e.len := by
    rw [heq]
    exact removeEach_len (e := { e.tick with expiryIndex := index }) statsOnly_countExpiration _
  refine ⟨keys.map (·.id), hdistinct, fun id => ⟨fun hmem => ?_, ?_⟩, hcount, index, heq⟩
  · obtain ⟨key, hkey, rfl⟩ := List.mem_map.mp hmem
    obtain ⟨⟨entry, hl, ht⟩, hle⟩ := hkeys key hkey
    exact ⟨entry, hl, _, ht, hle⟩
  · rintro ⟨entry, hl, t, ht, hle⟩
    by_cases hmem : (⟨t, id⟩ : ExpiryKey) ∈ keys
    · exact List.mem_map_of_mem (f := (·.id)) hmem
    -- a key that is left in the index is not due yet
    · rw [hcount, List.length_map] at hsum
      have hlate := hrest (by omega) ⟨t, id⟩ ((hindex _).mpr ⟨⟨entry, hl, ht⟩, hmem⟩)
      exact absurd hle (UInt64.not_le.mpr hlate)

theorem purges_removeExpired (H : e.Inv) {maxEntries : Nat} (hlen : e.len < maxEntries) :
    Purges (Removable e.clock.nowMs) (e.removeExpired maxEntries).1 e
      (e.removeExpired maxEntries).2 := by
  obtain ⟨ids, -, hids, -, index, heq⟩ := removeExpired_ids H hlen
  have h := purges_removeEach (e := { e.tick with expiryIndex := index })
    (P := Removable e.clock.nowMs) statsOnly_countExpiration hids
  rw [heq]
  exact ⟨h.removed, h.kept, h.count, h.nextAccess⟩

theorem removeExpired_len (e : Engine) (maxEntries : Nat) :
    (e.removeExpired maxEntries).1 + (e.removeExpired maxEntries).2.len = e.len :=
  removeEach_len statsOnly_countExpiration { e.tick with expiryIndex := _ } _

theorem removeExpired_stats (e : Engine) (maxEntries : Nat) :
    (e.removeExpired maxEntries).2.stats =
      { e.stats with expirations := e.stats.expirations + (e.removeExpired maxEntries).1 } := by
  have hloop : ∀ (ids : List EntryId) (e : Engine), (removeEach countExpiration e ids).2.stats =
      { e.stats with
        expirations := e.stats.expirations + (removeEach countExpiration e ids).1 } := by
    intro ids
    induction ids with
    | nil => exact fun _ => rfl
    | cons id ids ih =>
      intro e
      have hstats := removeEntry_stats e id
      unfold removeEach
      split
      · next heq =>
        rw [heq] at hstats
        dsimp only
        rw [ih, countExpiration, hstats]
        dsimp only
        rw [Nat.add_right_comm, Nat.add_assoc]
      · next heq =>
        rw [heq] at hstats
        rw [ih, hstats]
  unfold removeExpired
  exact hloop _ _

theorem HasTag.of_content {ns tag : String} {entry entry' : Entry}
    (hcontent : entry'.content = entry.content) (h : HasTag ns tag id entry') :
    HasTag ns tag id entry := by
  have h' : HasTag ns tag id entry'.content := h
  rw [hcontent] at h'
  exact h'

theorem Removable.of_content {nowMs : UInt64} {entry entry' : Entry}
    (hcontent : entry'.content = entry.content) (h : Removable nowMs id entry') :
    Removable nowMs id entry := by
  have h' : Removable nowMs id entry'.content := h
  rw [hcontent] at h'
  exact h'

/-- The engine has reclaimed its removable entries, `count` of them, and has counted them. -/
structure Reclaims (nowMs : UInt64) (count : Nat) (e e' : Engine) : Prop where
  purges : Purges (Removable nowMs) count e e'
  stats : e'.stats = { e.stats with expirations := e.stats.expirations + count }

theorem reclaims_removeExpired (H : e.Inv) {maxEntries : Nat} (hlen : e.len < maxEntries) :
    Reclaims e.clock.nowMs (e.removeExpired maxEntries).1 e (e.removeExpired maxEntries).2 :=
  ⟨purges_removeExpired H hlen, removeExpired_stats e maxEntries⟩

/-! ## Two engines that hold the same at a key -/

/-- `e` and `f` hold the same entry at `id`, up to its access stamp, and the same lease, up to its
token, and the counter of `f` is not ahead. -/
structure Alike (ρ : String → String) (id : EntryId) (e f : Engine) : Prop where
  entry : (f.entries.lookup id).map Entry.content = (e.entries.lookup id).map Entry.content
  lease : f.leases.lookup id = (e.leases.lookup id).map (Lease.renamed ρ)
  nextAccess : f.nextAccess ≤ e.nextAccess

theorem entryStateAt_of_content {entry entry' : Entry} (h : entry'.content = entry.content)
    (nowMs : UInt64) : entryStateAt entry' nowMs = entryStateAt entry nowMs := by
  have hrecord : entry'.content.record = entry.content.record := congrArg Entry.record h
  exact entryStateAt_congr hrecord nowMs

theorem value_of_content {entry entry' : Entry} (h : entry'.content = entry.content) :
    entry'.value = entry.value := by
  have hvalue : entry'.content.value = entry.content.value := congrArg Entry.value h
  exact hvalue

theorem memoryBytes_of_content {entry entry' : Entry} (h : entry'.content = entry.content) :
    entry'.memoryBytes = entry.memoryBytes := by
  have hbytes : entry'.content.memoryBytes = entry.content.memoryBytes :=
    congrArg Entry.memoryBytes h
  exact hbytes

namespace Alike

theorem absent (h : Alike ρ id e f) (hl : e.entries.lookup id = none) :
    f.entries.lookup id = none := by
  have hmap := h.entry
  rw [hl] at hmap
  exact Option.map_eq_none_iff.mp hmap

theorem stored (h : Alike ρ id e f) {entry : Entry} (hl : e.entries.lookup id = some entry) :
    ∃ entry', f.entries.lookup id = some entry' ∧ entry'.content = entry.content := by
  have hmap := h.entry
  rw [hl] at hmap
  exact Option.map_eq_some_iff.mp hmap

/-! ### Primitive updates -/

theorem tick (h : Alike ρ id e f) : Alike ρ id e.tick f.tick := ⟨h.entry, h.lease, h.nextAccess⟩

theorem isSome_eq (h : Alike ρ id e f) :
    (f.entries.lookup id).isSome = (e.entries.lookup id).isSome := by
  have hmap := congrArg Option.isSome h.entry
  simpa only [Option.isSome_map] using hmap

theorem removeEntry (h : Alike ρ id e f) :
    Alike ρ id (e.removeEntry id).2 (f.removeEntry id).2 := by
  refine ⟨?_, ?_, ?_⟩
  · simp [removeEntry_entries]
  · rw [lookup_leases_removeEntry, lookup_leases_removeEntry, h.isSome_eq]
    split
    · rfl
    · exact h.lease
  · simpa only [removeEntry_nextAccess] using h.nextAccess

theorem recordAccess (h : Alike ρ id e f) : Alike ρ id (e.recordAccess id) (f.recordAccess id) := by
  cases hl : e.entries.lookup id with
  | none => simpa only [Engine.recordAccess, hl, h.absent hl] using h
  | some entry =>
    obtain ⟨entry', hl', hcontent⟩ := h.stored hl
    refine ⟨?_, ?_, ?_⟩
    · rw [lookup_recordAccess_self hl, lookup_recordAccess_self hl']
      exact congrArg some hcontent
    · rw [recordAccess_leases, recordAccess_leases]
      exact h.lease
    · simp only [Engine.recordAccess, hl, hl', touch]
      exact UInt64.saturatingAdd_one_le h.nextAccess

theorem storeEntry (h : Alike ρ id e f) {entry entry' : Entry}
    (hcontent : entry'.content = entry.content) :
    Alike ρ id (e.storeEntry id entry) (f.storeEntry id entry') := by
  refine ⟨?_, h.lease, UInt64.saturatingAdd_one_le h.nextAccess⟩
  simp only [Engine.storeEntry, AList.lookup_insert, Option.map_some]
  rw [hcontent]

theorem dropLease (h : Alike ρ id e f) : Alike ρ id (e.dropLease id) (f.dropLease id) := by
  refine ⟨h.entry, ?_, h.nextAccess⟩
  simp [Engine.dropLease]

theorem createLease (h : Alike ρ id e f) (hnow : f.clock.nowMs = e.clock.nowMs)
    (leaseTtlMs : UInt64)
    (hρ : ρ (e.createLease id leaseTtlMs).1 = (f.createLease id leaseTtlMs).1) :
    Alike ρ id (e.createLease id leaseTtlMs).2 (f.createLease id leaseTtlMs).2 := by
  refine ⟨h.entry, ?_, UInt64.saturatingAdd_one_le h.nextAccess⟩
  simp only [Engine.createLease, AList.lookup_insert, Option.map_some, Lease.renamed, hnow]
    at hρ ⊢
  rw [hρ]

theorem activeLease (h : Alike ρ id e f) (hclock : f.clock = e.clock) :
    (f.activeLease id).1 = (e.activeLease id).1.map (Lease.renamed ρ) ∧
      (f.activeLease id).2.clock = (e.activeLease id).2.clock ∧
      Alike ρ id (e.activeLease id).2 (f.activeLease id).2 := by
  have hlease := h.lease
  cases hl : e.leases.lookup id with
  | none =>
    rw [hl] at hlease
    simp only [Engine.activeLease, hl, hlease, Option.map_none, true_and]
    exact ⟨hclock, h⟩
  | some lease =>
    rw [hl] at hlease
    rw [activeLease_of_some hl, activeLease_of_some hlease, hclock]
    refine ⟨?_, ?_, h.tick⟩
    · by_cases hle : e.clock.nowMs ≤ lease.expiresAtMs <;> simp [hle, Lease.renamed]
    · simp only [Engine.tick, hclock]

/-- The removal of what satisfies a condition on the contents of an entry. -/
theorem purge {P : EntryId → Entry → Prop} {count count' : Nat} {f' : Engine}
    (h : Alike ρ id e f)
    (hP : ∀ entry entry', entry'.content = entry.content → P id entry' → P id entry)
    (he : Purges P count e e') (hf : Purges P count' f f') : Alike ρ id e' f' := by
  have hnext : f'.nextAccess ≤ e'.nextAccess := by
    rw [he.nextAccess, hf.nextAccess]
    exact h.nextAccess
  by_cases hex : ∃ entry, e.entries.lookup id = some entry ∧ P id entry
  · obtain ⟨entry, hl, hPe⟩ := hex
    obtain ⟨entry', hl', hcontent⟩ := h.stored hl
    obtain ⟨hentry, hlease⟩ := he.removed id entry hl hPe
    obtain ⟨hentry', hlease'⟩ := hf.removed id entry' hl' (hP _ _ hcontent.symm hPe)
    refine ⟨?_, ?_, hnext⟩
    · rw [hentry, hentry']
    · rw [hlease, hlease']
      rfl
  · have hnot : ∀ entry, e.entries.lookup id = some entry → ¬ P id entry :=
      fun entry hl hPe => hex ⟨entry, hl, hPe⟩
    have hnot' : ∀ entry, f.entries.lookup id = some entry → ¬ P id entry := by
      intro entry' hl' hPe
      have hmap := h.entry
      rw [hl'] at hmap
      obtain ⟨entry, hl, hcontent⟩ := Option.map_eq_some_iff.mp hmap.symm
      exact hnot entry hl (hP _ _ hcontent.symm hPe)
    obtain ⟨hentry, hlease⟩ := he.kept id hnot
    obtain ⟨hentry', hlease'⟩ := hf.kept id hnot'
    refine ⟨?_, ?_, hnext⟩
    · rw [hentry, hentry']
      exact h.entry
    · rw [hlease, hlease']
      exact h.lease

/-! ### Reads -/

theorem getRefInner {R : Type} {ns : String} {key : Bytes} (h : Alike ρ ⟨ns, key⟩ e f)
    (hnow : f.clock.nowMs = e.clock.nowMs) (updateAccess : Bool) (map : GetOutcomeRef → R) :
    (f.getRefInner ns key updateAccess map).1 = (e.getRefInner ns key updateAccess map).1 ∧
      Alike ρ ⟨ns, key⟩ (e.getRefInner ns key updateAccess map).2
        (f.getRefInner ns key updateAccess map).2 := by
  cases hl : e.entries.lookup ⟨ns, key⟩ with
  | none =>
    simp only [Engine.getRefInner, tick_entries, hl, h.absent hl, true_and]
    exact h.tick
  | some entry =>
    obtain ⟨entry', hl', hcontent⟩ := h.stored hl
    have htouched : Alike ρ ⟨ns, key⟩
        (if updateAccess then e.tick.recordAccess ⟨ns, key⟩ else e.tick)
        (if updateAccess then f.tick.recordAccess ⟨ns, key⟩ else f.tick) := by
      split
      · exact h.tick.recordAccess
      · exact h.tick
    simp only [Engine.getRefInner, tick_entries, hl, hl', touch_eq_recordAccess (e := e.tick) hl,
      touch_eq_recordAccess (e := f.tick) hl', hnow, entryStateAt_of_content hcontent,
      value_of_content hcontent]
    cases entryStateAt entry e.clock.nowMs with
    | missing => exact ⟨rfl, h.tick⟩
    | expired => exact ⟨rfl, h.tick.removeEntry⟩
    | fresh | stale => exact ⟨rfl, htouched⟩

/-! ### Leases -/

/-- The renaming takes the token of one answer to the token of the other. -/
def Names (ρ : String → String) (outcome outcome' : StartLeaseOutcome) : Prop :=
  ∀ token token', outcome.token? = some token → outcome'.token? = some token' → ρ token = token'

theorem startLeaseForMissing (h : Alike ρ id e f) (hclock : f.clock = e.clock)
    {leaseTtlMs : UInt64}
    (hρ : Names ρ (e.startLeaseForMissing id leaseTtlMs).1
      (f.startLeaseForMissing id leaseTtlMs).1) :
    (f.startLeaseForMissing id leaseTtlMs).1 =
        (e.startLeaseForMissing id leaseTtlMs).1.renamed ρ ∧
      Alike ρ id (e.startLeaseForMissing id leaseTtlMs).2
        (f.startLeaseForMissing id leaseTtlMs).2 := by
  obtain ⟨hactive, hclock', h'⟩ := h.activeLease hclock
  simp only [startLeaseForMissing_eq, hactive, Option.isSome_map] at hρ ⊢
  split
  · exact ⟨rfl, h'⟩
  · next hnot =>
    rw [if_neg hnot, if_neg hnot] at hρ
    have hname := hρ _ _ rfl rfl
    refine ⟨?_, h'.createLease (congrArg Clock.nowMs hclock') leaseTtlMs hname⟩
    simp only [StartLeaseOutcome.renamed, hname]

theorem startLease {ns : String} {key : Bytes} (h : Alike ρ ⟨ns, key⟩ e f)
    (hclock : f.clock = e.clock) {leaseTtlMs : UInt64}
    (hρ : Names ρ (e.startLease ns key leaseTtlMs).1 (f.startLease ns key leaseTtlMs).1) :
    (f.startLease ns key leaseTtlMs).1 = (e.startLease ns key leaseTtlMs).1.renamed ρ ∧
      Alike ρ ⟨ns, key⟩ (e.startLease ns key leaseTtlMs).2 (f.startLease ns key leaseTtlMs).2 := by
  obtain ⟨hactive, hclock', h'⟩ := h.activeLease hclock
  have hclock'' : (f.activeLease ⟨ns, key⟩).2.tick.clock =
      (e.activeLease ⟨ns, key⟩).2.tick.clock :=
    congrArg Clock.tick hclock'
  cases hl : e.entries.lookup ⟨ns, key⟩ with
  | none =>
    rw [startLease_of_missing hl, startLease_of_missing (h.absent hl)] at hρ ⊢
    exact h'.startLeaseForMissing hclock' hρ
  | some entry =>
    obtain ⟨entry', hl', hcontent⟩ := h.stored hl
    have hstate' : entryStateAt entry' (f.activeLease ⟨ns, key⟩).2.clock.nowMs =
        entryStateAt entry (e.activeLease ⟨ns, key⟩).2.clock.nowMs := by
      rw [hclock', entryStateAt_of_content hcontent]
    cases hstate : entryStateAt entry (e.activeLease ⟨ns, key⟩).2.clock.nowMs with
    | missing => exact absurd hstate (entryStateAt_ne_missing _ _)
    | fresh =>
      rw [startLease_of_fresh hl hstate, startLease_of_fresh hl' (hstate'.trans hstate),
        value_of_content hcontent]
      exact ⟨rfl, h'.tick.recordAccess⟩
    | stale =>
      rw [startLease_of_stale hl hstate, startLease_of_stale hl' (hstate'.trans hstate)] at hρ ⊢
      simp only [hactive, Option.isSome_map, value_of_content hcontent] at hρ ⊢
      split
      · exact ⟨rfl, h'.tick.recordAccess⟩
      · next hnot =>
        rw [if_neg hnot, if_neg hnot] at hρ
        have hname := hρ _ _ rfl rfl
        refine ⟨?_, h'.tick.recordAccess.createLease ?_ leaseTtlMs hname⟩
        · simp only [StartLeaseOutcome.renamed, hname]
        · rw [recordAccess_clock, recordAccess_clock, hclock'']
    | expired =>
      rw [startLease_of_expired hl hstate, startLease_of_expired hl' (hstate'.trans hstate)]
        at hρ ⊢
      simp only [hactive, Option.isSome_map] at hρ ⊢
      split
      · exact ⟨rfl, h'.tick⟩
      · next hnot =>
        rw [if_neg hnot, if_neg hnot] at hρ
        refine h'.tick.removeEntry.startLeaseForMissing ?_ hρ
        rw [removeEntry_clock, removeEntry_clock, hclock'']

/-! ### Writes -/

theorem chargedWith_le {command : PutCommand} (h : Alike ρ command.id e f)
    (hmemory : f.memoryUsedBytes ≤ e.memoryUsedBytes) :
    f.chargedWith command ≤ e.chargedWith command := by
  unfold chargedWith
  refine Nat.add_le_add_right ?_ _
  cases hl : e.entries.lookup command.id with
  | none => rwa [removeEntry_of_none hl, removeEntry_of_none (h.absent hl)]
  | some entry =>
    obtain ⟨entry', hl', hcontent⟩ := h.stored hl
    simp only [Engine.removeEntry, hl, hl', memoryBytes_of_content hcontent]
    exact Nat.sub_le_sub_right hmemory _

/-- The limits of `f` are those of a part of the memory of `e`, and what is written fits there. -/
structure Shares (e f : Engine) (command : PutCommand) : Prop where
  inv : e.Inv
  inv' : f.Inv
  maxValueBytes : f.limits.maxValueBytes = e.limits.maxValueBytes
  maxMemoryBytes : f.limits.maxMemoryBytes ≤ e.limits.maxMemoryBytes
  memory : f.memoryUsedBytes ≤ e.memoryUsedBytes
  fits : command.value.length ≤ e.limits.maxValueBytes →
    estimateEntryMemory command.id command.value command.tags ≤ e.limits.maxMemoryBytes →
      e.chargedWith command ≤ f.limits.maxMemoryBytes

/-- Then both engines have room for it. -/
theorem room {command : PutCommand} (h : Alike ρ command.id e f) (hshares : Shares e f command) :
    (command.value.length ≤ e.limits.maxValueBytes →
      estimateEntryMemory command.id command.value command.tags ≤ e.limits.maxMemoryBytes →
        e.chargedWith command ≤ e.limits.maxMemoryBytes) ∧
    (command.value.length ≤ f.limits.maxValueBytes →
      estimateEntryMemory command.id command.value command.tags ≤ f.limits.maxMemoryBytes →
        f.chargedWith command ≤ f.limits.maxMemoryBytes) := by
  refine ⟨fun hvalue hest => (hshares.fits hvalue hest).trans hshares.maxMemoryBytes,
    fun hvalue hest => ?_⟩
  have hfits := hshares.fits (hshares.maxValueBytes ▸ hvalue) (hest.trans hshares.maxMemoryBytes)
  exact (h.chargedWith_le hshares.memory).trans hfits

theorem put {command : PutCommand} (h : Alike ρ command.id e f) (hshares : Shares e f command)
    (hnow : f.clock.nowMs = e.clock.nowMs) (o o' : IterOrder) :
    (f.put o' command).1 =
        (e.put o command).1.mapError (PutError.withBudget f.limits.maxMemoryBytes) ∧
      Alike ρ command.id (e.put o command).2 (f.put o' command).2 := by
  have hmax := hshares.maxMemoryBytes
  have hest : estimateEntryMemory command.id command.value command.tags ≤ e.chargedWith command :=
    Nat.le_add_left _ _
  have hcharged := h.chargedWith_le hshares.memory
  rcases put_cases hshares.inv o command with
    ⟨hvalue, heq⟩ | ⟨hvalue, hsize, heq⟩ | ⟨hvalue, hsize, -⟩
  · rcases put_cases hshares.inv' o' command with
      ⟨-, heq'⟩ | ⟨hvalue', -⟩ | ⟨hvalue', -⟩
    · rw [heq, heq', hshares.maxValueBytes]
      exact ⟨rfl, h⟩
    all_goals exact absurd (hshares.maxValueBytes ▸ hvalue') (Nat.not_le.mpr hvalue)
  · rw [← hshares.maxValueBytes] at hvalue
    rcases put_cases hshares.inv' o' command with
      ⟨hvalue', -⟩ | ⟨-, -, heq'⟩ | ⟨-, hsize', -⟩
    · omega
    · rw [heq, heq']
      exact ⟨rfl, h.tick⟩
    · omega
  · have hfits := hshares.fits hvalue hsize
    rw [put_of_room o hvalue (hfits.trans hmax), put_of_room o'
      (hshares.maxValueBytes ▸ hvalue) (hcharged.trans hfits), hnow]
    exact ⟨rfl, h.tick.removeEntry.storeEntry rfl⟩

theorem mapError_put_withBudget (result : Except PutError PutOutcome) (maxMemoryBytes : Nat) :
    (result.mapError (PutError.withBudget maxMemoryBytes)).mapError CompleteLeaseError.put =
      (result.mapError .put).mapError (CompleteLeaseError.withBudget maxMemoryBytes) := by
  cases result <;> rfl

/-- A completion with corresponding tokens. -/
theorem completeLease {command : CompleteLeaseCommand} {token : String}
    (h : Alike ρ command.id e f) (hclock : f.clock = e.clock)
    (htoken : ∀ lease, e.leases.lookup command.id = some lease →
      (ρ lease.token = token ↔ lease.token = command.leaseToken))
    (hshares : ∀ lease, e.leases.lookup command.id = some lease →
      e.clock.nowMs ≤ lease.expiresAtMs → lease.token = command.leaseToken →
        Shares (e.tick.dropLease command.id) (f.tick.dropLease command.id) command.toPut)
    (o o' : IterOrder) :
    (f.completeLease o' { command with leaseToken := token }).1 =
        (e.completeLease o command).1.mapError
          (CompleteLeaseError.withBudget f.limits.maxMemoryBytes) ∧
      Alike ρ command.id (e.completeLease o command).2
        (f.completeLease o' { command with leaseToken := token }).2 := by
  have hlease := h.lease
  cases hl : e.leases.lookup command.id with
  | none =>
    rw [hl] at hlease
    have hlease' : f.leases.lookup (CompleteLeaseCommand.id { command with leaseToken := token }) =
        none := hlease
    simp only [Engine.completeLease, Engine.activeLease, hl, hlease']
    exact ⟨rfl, h.dropLease⟩
  | some lease =>
    rw [hl] at hlease
    have hlease' : f.leases.lookup (CompleteLeaseCommand.id { command with leaseToken := token }) =
        some (lease.renamed ρ) := hlease
    have htime : (f.clock.nowMs ≤ (lease.renamed ρ).expiresAtMs) =
        (e.clock.nowMs ≤ lease.expiresAtMs) := by
      rw [hclock]
      rfl
    have hsame : ((lease.renamed ρ).token = token) = (lease.token = command.leaseToken) :=
      propext (htoken lease hl)
    rw [completeLease_of_some hl, completeLease_of_some hlease']
    simp only [htime, hsame]
    split_ifs with hle heq
    · have hnow : (f.tick.dropLease command.id).clock.nowMs =
          (e.tick.dropLease command.id).clock.nowMs :=
        congrArg (fun c => c.tick.nowMs) hclock
      obtain ⟨hout, halike⟩ := h.tick.dropLease.put (hshares lease hl hle heq) hnow o o'
      refine ⟨?_, halike⟩
      exact (congrArg (Except.mapError CompleteLeaseError.put) hout).trans
        (mapError_put_withBudget _ _)
    · exact ⟨rfl, h.tick⟩
    · exact ⟨rfl, h.tick.dropLease⟩

end Alike

end Engine
end Cachebox

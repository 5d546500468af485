import Cachebox.Engine.Ops

/-!
# The representation invariant of the engine

`Engine.Inv` says that the tag index and the expiry index mirror the entries, that the charged
memory is the sum of the entries' estimates, and that it stays under the cap. `remove_expired` and
`invalidate_tag` take keys out of an index before they remove the entries, so the part about the
indexes is stated relative to what is still visible: `Indexed P Q` describes an engine whose tag
index shows the tags in `P` and whose expiry index shows the keys in `Q`. Removing an entry
preserves `Indexed P Q` for every `P` and `Q` (`Indexed.removeEntry`), and the hidden part is
empty again once its entries are gone.
-/

namespace Cachebox
namespace Engine

variable {e e' : Engine} {id id' : EntryId} {entry : Entry}

/-- The engine stores an entry for `id` in the namespace of `tagId` that has its tag. -/
def Carries (e : Engine) (id : EntryId) (tagId : TagId) : Prop :=
  ∃ entry, e.entries.lookup id = some entry ∧ id.ns = tagId.ns ∧ tagId.tag ∈ entry.tags

instance (e : Engine) (id : EntryId) (tagId : TagId) : Decidable (e.Carries id tagId) :=
  match h : e.entries.lookup id with
  | none => isFalse fun ⟨_, hl, _⟩ => nomatch h.symm.trans hl
  | some entry =>
    decidable_of_iff (id.ns = tagId.ns ∧ tagId.tag ∈ entry.tags)
      ⟨fun hc => ⟨entry, h, hc⟩, fun ⟨_, hl, hc⟩ => Option.some.inj (h.symm.trans hl) ▸ hc⟩

/-- The engine stores an entry that becomes removable at the time of `key`. -/
def Due (e : Engine) (key : ExpiryKey) : Prop :=
  ∃ entry, e.entries.lookup key.id = some entry ∧
    removableAtMs entry.expiresAtMs entry.staleUntilMs = some key.expiresAtMs

/-- The indexes mirror the entries, up to the tags outside `P` and the expiry keys outside `Q`. -/
structure Indexed (e : Engine) (P : TagId → Prop) (Q : ExpiryKey → Prop) : Prop where
  tags : ∀ tagId id, e.tagIndex.Holds tagId id ↔ e.Carries id tagId ∧ P tagId
  noEmpty : e.tagIndex.NoEmpty
  expiry : ∀ key, key ∈ e.expiryIndex ↔ e.Due key ∧ Q key

/-- What holds of every stored entry by itself. -/
structure EntryOk (id : EntryId) (entry : Entry) : Prop where
  charged : entry.memoryBytes = estimateEntryMemory id entry.value entry.tags
  window : ∀ staleUntil, entry.staleUntilMs = some staleUntil →
    ∃ expiresAt, entry.expiresAtMs = some expiresAt ∧ expiresAt ≤ staleUntil

/-- The charged memory is the sum over the entries. -/
structure Accounted (e : Engine) : Prop where
  entries : ∀ id entry, e.entries.lookup id = some entry → EntryOk id entry
  memory : e.memoryUsedBytes = HashMap.sumBy (fun _ entry => entry.memoryBytes) e.entries

/-- **The representation invariant**, together with the memory cap. -/
structure Inv (e : Engine) : Prop where
  indexed : e.Indexed (fun _ => True) (fun _ => True)
  accounted : e.Accounted
  capped : e.memoryUsedBytes ≤ e.limits.maxMemoryBytes

theorem Carries.of_entries_eq (h : e'.entries = e.entries) {tagId : TagId} :
    e'.Carries id tagId ↔ e.Carries id tagId := by
  simp only [Carries, h]

theorem Due.of_entries_eq (h : e'.entries = e.entries) {key : ExpiryKey} :
    e'.Due key ↔ e.Due key := by
  simp only [Due, h]

/-- The invariant reads neither the clock, the leases, the counters nor the statistics. -/
theorem Inv.congr (H : e.Inv) (hentries : e'.entries = e.entries)
    (htags : e'.tagIndex = e.tagIndex) (hexpiry : e'.expiryIndex = e.expiryIndex)
    (hmemory : e'.memoryUsedBytes = e.memoryUsedBytes) (hlimits : e'.limits = e.limits) :
    e'.Inv where
  indexed :=
    { tags := fun tagId id => by
        rw [htags, Carries.of_entries_eq hentries]; exact H.indexed.tags tagId id
      noEmpty := htags ▸ H.indexed.noEmpty
      expiry := fun key => by
        rw [hexpiry, Due.of_entries_eq hentries]; exact H.indexed.expiry key }
  accounted :=
    { entries := by rw [hentries]; exact H.accounted.entries
      memory := by rw [hmemory, hentries]; exact H.accounted.memory }
  capped := by rw [hmemory, hlimits]; exact H.capped

theorem Inv.tick (H : e.Inv) : e.tick.Inv := H.congr rfl rfl rfl rfl rfl

theorem inv_withClockAndLimits (clock : Clock) (limits : EngineLimits) :
    (withClockAndLimits clock limits).Inv where
  indexed :=
    { tags := fun tagId id => by
        simp [withClockAndLimits, Carries, MultiMap.holds_empty]
      noEmpty := MultiMap.noEmpty_empty
      expiry := fun key => by simp [withClockAndLimits, Due] }
  accounted :=
    { entries := fun id entry h => by simp [withClockAndLimits] at h
      memory := rfl }
  capped := Nat.zero_le _

/-! ## Removing one entry -/

theorem removeEntry_of_none (h : e.entries.lookup id = none) : e.removeEntry id = (false, e) := by
  simp [removeEntry, h]

@[simp] theorem removeEntry_fst (e : Engine) (id : EntryId) :
    (e.removeEntry id).1 = (e.entries.lookup id).isSome := by
  unfold removeEntry
  split <;> simp_all

@[simp] theorem removeEntry_entries (e : Engine) (id : EntryId) :
    (e.removeEntry id).2.entries = e.entries.erase id := by
  unfold removeEntry
  split
  · next h => exact (HashMap.erase_of_lookup_none h).symm
  · rfl

@[simp] theorem removeEntry_limits (e : Engine) (id : EntryId) :
    (e.removeEntry id).2.limits = e.limits := by
  unfold removeEntry
  split <;> rfl

@[simp] theorem removeEntry_clock (e : Engine) (id : EntryId) :
    (e.removeEntry id).2.clock = e.clock := by
  unfold removeEntry
  split <;> rfl

theorem carries_removeEntry {tagId : TagId} :
    (e.removeEntry id).2.Carries id' tagId ↔ e.Carries id' tagId ∧ id' ≠ id := by
  simp only [Carries, removeEntry_entries, HashMap.lookup_erase']
  split <;> simp_all

theorem due_removeEntry {key : ExpiryKey} :
    (e.removeEntry id).2.Due key ↔ e.Due key ∧ key.id ≠ id := by
  simp only [Due, removeEntry_entries, HashMap.lookup_erase']
  split <;> simp_all

theorem mem_tagIds {ns : String} {tags : List String} {tagId : TagId} :
    tagId ∈ tagIds ns tags ↔ tagId.ns = ns ∧ tagId.tag ∈ tags := by
  obtain ⟨ns', tag⟩ := tagId
  simp only [tagIds, List.mem_map, TagId.mk.injEq]
  constructor
  · intro h
    obtain ⟨t, ht, rfl, rfl⟩ := h
    exact ⟨rfl, ht⟩
  · rintro ⟨rfl, ht⟩
    exact ⟨tag, ht, rfl, rfl⟩

theorem carries_iff_mem_tagIds (h : e.entries.lookup id = some entry) {tagId : TagId} :
    e.Carries id tagId ↔ tagId ∈ tagIds id.ns entry.tags := by
  rw [mem_tagIds]
  constructor
  · intro h
    obtain ⟨entry', hl, hns, ht⟩ := h
    cases h.symm.trans hl
    exact ⟨hns.symm, ht⟩
  · rintro ⟨hns, ht⟩
    exact ⟨entry, h, hns.symm, ht⟩

/-- Removing an entry keeps what the indexes show, whatever they hide. -/
theorem Indexed.removeEntry {P : TagId → Prop} {Q : ExpiryKey → Prop} (H : e.Indexed P Q)
    (id : EntryId) : (e.removeEntry id).2.Indexed P Q := by
  cases hl : e.entries.lookup id with
  | none => rw [removeEntry_of_none hl]; exact H
  | some entry =>
    refine ⟨fun tagId id' => ?_, ?_, fun key => ?_⟩
    · rw [carries_removeEntry]
      simp only [Engine.removeEntry, hl, MultiMap.holds_foldl_discard, H.tags]
      constructor
      · intro h
        obtain ⟨⟨hc, hP⟩, hnot⟩ := h
        refine ⟨⟨hc, ?_⟩, hP⟩
        rintro rfl
        exact hnot ⟨(carries_iff_mem_tagIds hl).mp hc, rfl⟩
      · intro h
        obtain ⟨⟨hc, hne⟩, hP⟩ := h
        exact ⟨⟨hc, hP⟩, fun h => hne h.2⟩
    · simp only [Engine.removeEntry, hl]
      exact H.noEmpty.foldl_discard _ _
    · rw [due_removeEntry]
      have hkey : e.Due key → (key.id = id ↔
          removableAtMs entry.expiresAtMs entry.staleUntilMs = some key.expiresAtMs ∧
            key.id = id) := by
        intro h
        obtain ⟨entry', hl', ht⟩ := h
        refine ⟨fun hid => ⟨?_, hid⟩, And.right⟩
        rw [hid, hl] at hl'
        cases hl'
        exact ht
      simp only [Engine.removeEntry, hl]
      cases hr : removableAtMs entry.expiresAtMs entry.staleUntilMs with
      | none =>
        simp only [hr, reduceCtorEq, false_and, iff_false] at hkey
        dsimp only
        rw [H.expiry]
        exact ⟨fun h => ⟨⟨h.1, hkey h.1⟩, h.2⟩, fun h => ⟨h.1.1, h.2⟩⟩
      | some t =>
        simp only [hr, Option.some.injEq] at hkey
        dsimp only
        rw [Finset.mem_erase, H.expiry]
        constructor
        · intro h
          obtain ⟨hne, hd, hQ⟩ := h
          refine ⟨⟨hd, fun hid => hne ?_⟩, hQ⟩
          obtain ⟨rfl, rfl⟩ := (hkey hd).mp hid
          rfl
        · intro h
          obtain ⟨⟨hd, hid⟩, hQ⟩ := h
          refine ⟨?_, hd, hQ⟩
          rintro rfl
          exact hid rfl

theorem Accounted.removeEntry (H : e.Accounted) (id : EntryId) :
    (e.removeEntry id).2.Accounted := by
  cases hl : e.entries.lookup id with
  | none => rw [removeEntry_of_none hl]; exact H
  | some entry =>
    refine ⟨fun id' entry' h => ?_, ?_⟩
    · rw [removeEntry_entries, HashMap.lookup_erase'] at h
      split at h
      · cases h
      · exact H.entries id' entry' h
    · have hsum := HashMap.sumBy_of_lookup (f := fun _ entry => entry.memoryBytes) hl
      have hmemory := H.memory
      rw [removeEntry_entries]
      simp only [Engine.removeEntry, hl]
      omega

theorem removeEntry_memory_le (e : Engine) (id : EntryId) :
    (e.removeEntry id).2.memoryUsedBytes ≤ e.memoryUsedBytes := by
  unfold removeEntry
  split
  · exact Nat.le_refl _
  · exact Nat.sub_le _ _

theorem Inv.removeEntry (H : e.Inv) (id : EntryId) : (e.removeEntry id).2.Inv where
  indexed := H.indexed.removeEntry id
  accounted := H.accounted.removeEntry id
  capped := by
    rw [removeEntry_limits]
    exact (removeEntry_memory_le e id).trans H.capped

/-! ## Removing a list of entries -/

/-- What one removal and the loop's own bookkeeping preserve, the loop preserves. -/
theorem removeEach_invariant {I : Engine → Prop} {f : Engine → Engine} (hf : ∀ e, I e → I (f e))
    (hremove : ∀ e id, I e → I (e.removeEntry id).2) {e : Engine} (h : I e) (ids : List EntryId) :
    I (removeEach f e ids).2 := by
  induction ids generalizing e with
  | nil => exact h
  | cons id ids ih =>
    have hr := hremove e id h
    unfold removeEach
    split
    · next heq => rw [heq] at hr; exact ih (hf _ hr)
    · next heq => rw [heq] at hr; exact ih hr

/-- The bookkeeping of a removal loop touches the statistics only. -/
structure StatsOnly (f : Engine → Engine) : Prop where
  eq : ∀ e, f e = { e with stats := (f e).stats }

theorem statsOnly_self : StatsOnly fun e => e := ⟨fun _ => rfl⟩

theorem statsOnly_countExpiration : StatsOnly countExpiration := ⟨fun _ => rfl⟩

theorem StatsOnly.entries {f : Engine → Engine} (H : StatsOnly f) (e : Engine) :
    (f e).entries = e.entries := by rw [H.eq]

theorem StatsOnly.indexed {f : Engine → Engine} (H : StatsOnly f) {P : TagId → Prop}
    {Q : ExpiryKey → Prop} (h : e.Indexed P Q) : (f e).Indexed P Q := by
  rw [H.eq]
  exact ⟨h.tags, h.noEmpty, h.expiry⟩

theorem StatsOnly.accounted {f : Engine → Engine} (H : StatsOnly f) (h : e.Accounted) :
    (f e).Accounted := by
  rw [H.eq]
  exact ⟨h.entries, h.memory⟩

theorem StatsOnly.capped {f : Engine → Engine} (H : StatsOnly f)
    (h : e.memoryUsedBytes ≤ e.limits.maxMemoryBytes) :
    (f e).memoryUsedBytes ≤ (f e).limits.maxMemoryBytes := by
  rw [H.eq]
  exact h

variable {f : Engine → Engine}

theorem Indexed.removeEach {P : TagId → Prop} {Q : ExpiryKey → Prop} (H : e.Indexed P Q)
    (hf : StatsOnly f) (ids : List EntryId) : (removeEach f e ids).2.Indexed P Q :=
  removeEach_invariant (I := fun e => e.Indexed P Q) (fun _ h => hf.indexed h)
    (fun _ id h => h.removeEntry id) H ids

theorem Accounted.removeEach (H : e.Accounted) (hf : StatsOnly f) (ids : List EntryId) :
    (removeEach f e ids).2.Accounted :=
  removeEach_invariant (fun _ h => hf.accounted h) (fun _ id h => h.removeEntry id) H ids

theorem capped_removeEach (h : e.memoryUsedBytes ≤ e.limits.maxMemoryBytes) (hf : StatsOnly f)
    (ids : List EntryId) :
    (removeEach f e ids).2.memoryUsedBytes ≤ (removeEach f e ids).2.limits.maxMemoryBytes := by
  refine removeEach_invariant (I := fun e => e.memoryUsedBytes ≤ e.limits.maxMemoryBytes)
    (fun _ h => hf.capped h) (fun e id h => ?_) h ids
  rw [removeEntry_limits]
  exact (removeEntry_memory_le e id).trans h

theorem lookup_removeEach (hf : StatsOnly f) (e : Engine) (ids : List EntryId) (id : EntryId) :
    (removeEach f e ids).2.entries.lookup id =
      if id ∈ ids then none else e.entries.lookup id := by
  induction ids generalizing e with
  | nil => simp [removeEach]
  | cons id₀ ids ih =>
    have hlookup : (e.removeEntry id₀).2.entries.lookup id =
        if id = id₀ then none else e.entries.lookup id := by
      rw [removeEntry_entries, HashMap.lookup_erase']
    unfold removeEach
    split
    · next heq =>
      rw [heq] at hlookup
      rw [ih, hf.entries, hlookup]
      by_cases h : id ∈ ids <;> by_cases h₀ : id = id₀ <;> simp [h, h₀]
    · next heq =>
      rw [heq] at hlookup
      rw [ih, hlookup]
      by_cases h : id ∈ ids <;> by_cases h₀ : id = id₀ <;> simp [h, h₀]

theorem removeEach_limits (hf : StatsOnly f) (e : Engine) (ids : List EntryId) :
    (removeEach f e ids).2.limits = e.limits :=
  removeEach_invariant (I := fun e' => e'.limits = e.limits) (fun e' h => by rw [hf.eq]; exact h)
    (fun e' id h => by rw [removeEntry_limits]; exact h) rfl ids

theorem removeEach_clock (hf : StatsOnly f) (e : Engine) (ids : List EntryId) :
    (removeEach f e ids).2.clock = e.clock :=
  removeEach_invariant (I := fun e' => e'.clock = e.clock) (fun e' h => by rw [hf.eq]; exact h)
    (fun e' id h => by rw [removeEntry_clock]; exact h) rfl ids

end Engine
end Cachebox

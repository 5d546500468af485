import Cachebox.Engine.TimedMap

/-!
# Tags of one engine

Where the tags of stored entries come from, and what `invalidate_tag` does: it removes exactly the
entries that carry the tag, and counts them.
-/

namespace Cachebox
namespace Engine

variable {e : Engine} {id : EntryId} {tagId : TagId}

theorem carries_iff_record :
    e.Carries id tagId ↔ ∃ r, e.record id = some r ∧ id.ns = tagId.ns ∧ tagId.tag ∈ r.tags := by
  constructor
  · intro h
    obtain ⟨entry, hl, hns, htag⟩ := h
    exact ⟨entry.record, record_of_lookup hl, hns, htag⟩
  · intro h
    obtain ⟨r, hr, hns, htag⟩ := h
    obtain ⟨entry, hl, rfl⟩ := Option.map_eq_some_iff.mp hr
    exact ⟨entry, hl, hns, htag⟩

/-- An entry with a tag has been there before, or has just been written. -/
theorem carries_exec (H : e.Inv) (op : Op) (h : (e.exec op).2.Carries id tagId) :
    e.Carries id tagId ∨ ∃ r, EngineEvent.written (Machine.event exec e op) = some (id, r) ∧
      id.ns = tagId.ns ∧ tagId.tag ∈ r.tags := by
  obtain ⟨r, hr, hns, htag⟩ := carries_iff_record.mp h
  rcases record_exec H op hr with hb | hw
  · exact .inl (carries_iff_record.mpr ⟨r, hb, hns, htag⟩)
  · exact .inr ⟨r, hw, hns, htag⟩

theorem mem_tagIdsForEntry : tagId ∈ e.tagIdsForEntry id.ns id.key ↔ e.Carries id tagId := by
  unfold tagIdsForEntry
  cases hl : e.entries.lookup id with
  | none => simp [Carries, hl]
  | some entry =>
    simp only [Option.map_some, Option.getD_some]
    exact (carries_iff_mem_tagIds hl).symm

theorem hasTagId_iff (H : e.Inv) : e.hasTagId tagId ↔ ∃ id, e.Carries id tagId := by
  have htags : ∀ id, e.tagIndex.Holds tagId id ↔ e.Carries id tagId := by
    intro id
    rw [H.indexed.tags, and_true]
  simp only [← htags, H.indexed.noEmpty.exists_holds_iff, hasTagId]
  cases hl : e.tagIndex.lookup tagId with
  | none => simp
  | some ids =>
    have hne : ids.entries ≠ [] := fun h => H.indexed.noEmpty tagId ids hl (AList.ext h)
    simpa using hne

/-! ## Counting the entries with a tag -/

/-- The number of stored entries in the namespace of the tag that have the tag. -/
def carrierCount (e : Engine) (tagId : TagId) : Nat :=
  (e.entries.entries.filter fun p => p.1.ns = tagId.ns ∧ tagId.tag ∈ p.2.tags).length

/-- A removal loop over distinct stored identifiers counts all of them. -/
theorem removeEach_count {f : Engine → Engine} (hf : StatsOnly f) {e : Engine}
    {ids : List EntryId} (hnodup : ids.Nodup) (hstored : ∀ id ∈ ids, (e.entries.lookup id).isSome) :
    (removeEach f e ids).1 = ids.length := by
  induction ids generalizing e with
  | nil => rfl
  | cons id ids ih =>
    obtain ⟨hnew, hnodup'⟩ := List.nodup_cons.mp hnodup
    rw [List.forall_mem_cons] at hstored
    have hfst := removeEntry_fst e id
    have hentries := removeEntry_entries e id
    rw [hstored.1] at hfst
    unfold removeEach
    split
    · next e' heq =>
      rw [heq] at hentries
      refine congrArg (· + 1) (ih hnodup' fun id' hmem => ?_)
      have hne : id' ≠ id := fun h => hnew (h ▸ hmem)
      rw [hf.entries, show e'.entries = _ from hentries, HashMap.lookup_erase', if_neg hne]
      exact hstored.2 id' hmem
    · next heq => rw [heq] at hfst; cases hfst

theorem length_of_carriers {ids : List EntryId} (hnodup : ids.Nodup)
    (hids : ∀ id, id ∈ ids ↔ e.Carries id tagId) : ids.length = e.carrierCount tagId := by
  have hkeys : ((e.entries.entries.filter fun p => p.1.ns = tagId.ns ∧ tagId.tag ∈ p.2.tags).map
      Sigma.fst).Nodup :=
    e.entries.keys_nodup.sublist (List.filter_sublist.map Sigma.fst)
  have hperm := (List.perm_ext_iff_of_nodup hnodup hkeys).mpr fun id => by
    rw [hids]
    simp only [List.mem_map, List.mem_filter, decide_eq_true_eq, Carries,
      HashMap.lookup_eq_some_iff_mem]
    constructor
    · intro h
      obtain ⟨entry, hmem, hns, htag⟩ := h
      exact ⟨⟨id, entry⟩, ⟨hmem, hns, htag⟩, rfl⟩
    · intro h
      obtain ⟨⟨id', entry⟩, ⟨hmem, hns, htag⟩, rfl⟩ := h
      exact ⟨entry, hmem, hns, htag⟩
  rw [carrierCount, hperm.length_eq, List.length_map]

/-- `invalidate_tag` on one engine removes the entries with the tag and counts them. -/
theorem invalidateTag_correct (H : e.Inv) (o : IterOrder) (ns tag : String) :
    (e.invalidateTag o ns tag).1 = e.carrierCount ⟨ns, tag⟩ ∧
      ∀ id, (e.Carries id ⟨ns, tag⟩ → (e.invalidateTag o ns tag).2.entries.lookup id = none) ∧
        (¬ e.Carries id ⟨ns, tag⟩ →
          (e.invalidateTag o ns tag).2.entries.lookup id = e.entries.lookup id) := by
  obtain ⟨ids, hnodup, hids, heq⟩ := invalidateTag_spec H o ns tag
  have hcount := removeEach_count (e := { e with tagIndex := e.tagIndex.erase ⟨ns, tag⟩ })
    statsOnly_self hnodup fun id hmem => by
      obtain ⟨entry, hl, -⟩ := (hids id).mp hmem
      exact Option.isSome_of_mem hl
  refine ⟨?_, fun id => ⟨fun hc => ?_, fun hc => ?_⟩⟩
  · rw [heq, hcount, length_of_carriers hnodup hids]
  · rw [heq, lookup_removeEach statsOnly_self, if_pos ((hids id).mpr hc)]
  · rw [heq, lookup_removeEach statsOnly_self, if_neg (mt (hids id).mp hc)]

theorem not_carries_invalidateTag (H : e.Inv) (o : IterOrder) (ns tag : String) (id : EntryId) :
    ¬ (e.invalidateTag o ns tag).2.Carries id ⟨ns, tag⟩ := by
  intro hc
  rcases carries_exec H (.invalidateTag o ns tag) hc with hbefore | ⟨r, hw, -⟩
  · have hnone := ((invalidateTag_correct H o ns tag).2 id).1 hbefore
    obtain ⟨entry, hl, -⟩ := hc
    cases hnone.symm.trans hl
  · cases hw

end Engine
end Cachebox
